import Mathlib.Data.Int.Order.Basic
import Mathlib.Data.List.Count
import Mathlib.Tactic.Ring
import Mathlib.Tactic.SplitIfs
import Cauli.Lib.Parties
import Cauli.Worker.Fetch

/-!
# Shutdown and drain (`worker/src/lib.rs`, `worker/src/loops.rs`)

The first signal stops the loops that take entries; `run_worker` then waits, for a while, until no dispatch
is in flight, and a second signal ends the process at once. The signal task, the two loops, the dispatches
and `run_worker` run side by side, so a loop may see the shutdown late, and each counter is read and written
by steps of their own.

* `stepSignals`: `spawn_signal_task`;
* `stepFetch`, `stepRecovery`: `fetch_loop` and `recovery_loop`, as far as they look at the shutdown and
  spawn dispatches; `stepDispatch`: a dispatch and its `DecrGuard`;
* `stepMain`: `run_worker` from the end of `fetch_loop` on;
* `DrainOk`: what holds in every reachable state;
* `drain_sound`: what an exit code says, what may still be taken once the shutdown is sent, and that a signal
  can always end the worker.

Instants are in nanoseconds. The free slots and the backlog that a gate reads are part of its label, as are
the reply to a read and the outcome of a dispatch.
-/

namespace Cauli.Drain

open Transition

/-- `SECOND_SIGNAL_MIN_GAP`. -/
def SECOND_SIGNAL_MIN_GAP : ℕ := 1000000000

/-- The sleep of the drain. -/
def DRAIN_POLL : ℕ := 100000000

/-- `DRAIN_TIMEOUT_EXIT_CODE`. -/
def DRAIN_TIMEOUT_EXIT_CODE : ℕ := 88

/-- The code of a panic that leaves `run_worker`. -/
def PANIC_EXIT_CODE : ℕ := 101

/-- The latest `Instant`: seconds are an `i64`. -/
def INSTANT_MAX : ℕ := (2 ^ 63 - 1) * 1000000000 + 999999999

/-- The settings; `drain_timeout` is in seconds. -/
structure DrainCfg extends FetchCfg where
  drainTimeout : ℕ

/-- The deadline of a drain that began at `since`. -/
def DrainCfg.deadline (cfg : DrainCfg) (since : ℕ) : ℕ := since + cfg.drainTimeout * 1000000000

/-- The most entries of one read. -/
def DrainCfg.maxRead (cfg : DrainCfg) : ℕ := max cfg.batch cfg.streams

/-- The task of a dispatch: `finished` when `process` has returned or panicked, `gone` when its guard has
been dropped. -/
inductive Status
  | running
  | finished
  | gone
  deriving DecidableEq

structure Dispatched where
  origin : Origin
  status : Status := .running

/-- Where `fetch_loop` is. -/
inductive Fetching
  | top
  /-- It has not seen the shutdown. -/
  | passed
  | reading (room : ℕ)
  | dispatching (rest : ℕ)
  /-- In `spawn_dispatch`, past the `fetch_add`. -/
  | spawning (rest : ℕ)
  | stopped

/-- Where `recovery_loop` is. -/
inductive Recovering
  | idle
  | sweeping
  /-- In `admission_open`; it has not seen the shutdown. -/
  | admitting
  | page (room : ℕ)
  | spawning (room : ℕ)

/-- Where the signal task is. -/
inductive Signals
  | waiting
  | received
  | sent
  | draining (first : ℕ)
  | forcing (first second : ℕ)

/-- Where `run_worker` is. -/
inductive Main
  | fetching
  | looking (since : ℕ)
  | sleeping (since wake : ℕ)
  /-- Its loop is over. -/
  | leaving (since : ℕ)
  | decided (since : ℕ) (left : ℤ)

/-- The end of the process. -/
structure Exit where
  code : ℕ
  at_ : ℕ

/-- `run_worker` has left its loop and not yet read how many dispatches are left. -/
def Main.isLeaving : Main → Bool
  | .leaving _ => true
  | .fetching | .looking _ | .sleeping .. | .decided .. => false

/-- The worker. `term` and `int` are signals that were not received yet. Records: `raised`, how many signals
were raised, `lateFetched` and `lateRecovered`, how many dispatches were counted after the shutdown was sent,
`raced`, how many of these between the last look of `run_worker` at the number in flight and its reading of
it, and `seen`, how many had been spawned at that reading. -/
structure State where
  now : ℕ
  term : Bool := false
  int : Bool := false
  shutdown : Bool := false
  inflightTotal : ℤ := 0
  signals : Signals := .waiting
  fetch : Fetching := .top
  recovery : Recovering := .idle
  main : Main := .fetching
  dispatched : List Dispatched := []
  exited : Option Exit := none
  raised : ℕ := 0
  lateFetched : ℕ := 0
  lateRecovered : ℕ := 0
  raced : ℕ := 0
  seen : ℕ := 0

/-- The steps. -/
inductive Label
  | time (d : ℕ)
  /-- A signal arrives: SIGINT or SIGTERM. -/
  | raise (int : Bool)
  | receive (int : Bool)
  | send
  | begin
  | force
  | fetchCheck
  | fetchGate (permits backlog : ℕ)
  | reply (n : ℕ)
  | fetchFail
  | fetchCount
  | fetchSpawn
  | fetchNext
  | tick
  | recoveryCheck
  | recoveryGate (permits backlog : ℕ)
  | pageCount
  | pageSpawn
  | pageEnd (more : Bool)
  | finish (i : ℕ)
  | drop (i : ℕ)
  | stop
  | look
  | wake
  | leave
  | exit

/-- The steps of the signal task. -/
def stepSignals (s : State) : Label → Option State
  | .raise int =>
    some { s with term := s.term || !int, int := s.int || int, raised := s.raised + 1 }
  | .receive int =>
    if (if int then s.int else s.term) then
      let s := { s with term := s.term && int, int := s.int && !int }
      match s.signals with
      | .waiting => some { s with signals := .received }
      | .draining first =>
        if SECOND_SIGNAL_MIN_GAP ≤ s.now - first then some { s with signals := .forcing first s.now } else some s
      | _ => none
    else none
  | .send =>
    match s.signals with
    | .received => some { s with signals := .sent, shutdown := true }
    | _ => none
  | .begin =>
    match s.signals with
    | .sent => some { s with signals := .draining s.now }
    | _ => none
  | .force =>
    match s.signals with
    | .forcing .. => some { s with exited := some ⟨130, s.now⟩ }
    | _ => none
  | _ => none

/-- The steps of `fetch_loop`. A gate that is shut is waited for and read again. -/
def stepFetch (cfg : DrainCfg) (s : State) : Label → Option State
  | .fetchCheck =>
    match s.fetch with
    | .top => some { s with fetch := if s.shutdown then .stopped else .passed }
    | _ => none
  | .fetchGate permits backlog =>
    match s.fetch with
    | .passed =>
      some { s with
        fetch := if permits < cfg.minPermits ∨ 0 < backlog then .top
          else .reading (cfg.perStream permits * cfg.streams) }
    | _ => none
  | .reply n =>
    match s.fetch with
    | .reading room => if n ≤ room then some { s with fetch := .dispatching n } else none
    | _ => none
  | .fetchFail =>
    match s.fetch with
    | .reading _ => some { s with fetch := .top }
    | _ => none
  | .fetchCount =>
    match s.fetch with
    | .dispatching (rest + 1) =>
      some { s with
        fetch := .spawning rest
        inflightTotal := s.inflightTotal + 1
        lateFetched := s.lateFetched + s.shutdown.toNat }
    | _ => none
  | .fetchSpawn =>
    match s.fetch with
    | .spawning rest =>
      some { s with fetch := .dispatching rest, dispatched := s.dispatched ++ [{ origin := .fetch }] }
    | _ => none
  | .fetchNext =>
    match s.fetch with
    | .dispatching 0 => some { s with fetch := .top }
    | _ => none
  | _ => none

/-- The steps of `recovery_loop`. -/
def stepRecovery (s : State) : Label → Option State
  | .tick =>
    match s.recovery with
    | .idle => some { s with recovery := if s.shutdown then .idle else .sweeping }
    | _ => none
  | .recoveryCheck =>
    match s.recovery with
    | .sweeping => some { s with recovery := if s.shutdown then .idle else .admitting }
    | _ => none
  | .recoveryGate permits backlog =>
    match s.recovery with
    | .admitting =>
      some { s with
        recovery := if 0 < permits ∧ backlog = 0 then .page (min permits RECOVERY_SCAN_BATCH) else .sweeping }
    | _ => none
  | .pageCount =>
    match s.recovery with
    | .page (room + 1) =>
      some { s with
        recovery := .spawning room
        inflightTotal := s.inflightTotal + 1
        lateRecovered := s.lateRecovered + s.shutdown.toNat
        raced := s.raced + s.main.isLeaving.toNat }
    | _ => none
  | .pageSpawn =>
    match s.recovery with
    | .spawning room =>
      some { s with recovery := .page room, dispatched := s.dispatched ++ [{ origin := .recovery }] }
    | _ => none
  | .pageEnd more =>
    match s.recovery with
    | .page _ => some { s with recovery := if more then .sweeping else .idle }
    | _ => none
  | _ => none

/-- The steps of dispatch `i`. -/
def stepDispatch (s : State) : Label → Option State
  | .finish i =>
    (s.dispatched[i]?).bind fun d => match d.status with
      | .running => some { s with dispatched := s.dispatched.set i { d with status := .finished } }
      | _ => none
  | .drop i =>
    (s.dispatched[i]?).bind fun d => match d.status with
      | .finished =>
        some { s with
          dispatched := s.dispatched.set i { d with status := .gone }
          inflightTotal := s.inflightTotal - 1 }
      | _ => none
  | _ => none

/-- The steps of `run_worker`, from the end of `fetch_loop` on. -/
def stepMain (cfg : DrainCfg) (s : State) : Label → Option State
  | .stop =>
    match s.main, s.fetch with
    | .fetching, .stopped =>
      -- the sum of an `Instant` and a `Duration` panics out of range
      if cfg.deadline s.now ≤ INSTANT_MAX then some { s with main := .looking s.now }
      else some { s with exited := some ⟨PANIC_EXIT_CODE, s.now⟩ }
    | _, _ => none
  | .look =>
    match s.main with
    | .looking since =>
      some { s with
        main := if 0 < s.inflightTotal ∧ s.now < cfg.deadline since then .sleeping since (s.now + DRAIN_POLL)
          else .leaving since }
    | _ => none
  | .wake =>
    match s.main with
    | .sleeping since wake => if wake ≤ s.now then some { s with main := .looking since } else none
    | _ => none
  | .leave =>
    match s.main with
    | .leaving since =>
      some { s with main := .decided since s.inflightTotal, seen := s.dispatched.length }
    | _ => none
  | .exit =>
    match s.main with
    | .decided _ left =>
      some { s with exited := some ⟨if 0 < left then DRAIN_TIMEOUT_EXIT_CODE else 0, s.now⟩ }
    | _ => none
  | _ => none

/-- One step. -/
def step (cfg : DrainCfg) (s : State) (l : Label) : Option State :=
  if s.exited.isSome then none
  else match l with
    | .time d => some { s with now := s.now + d }
    | .raise _ | .receive _ | .send | .begin | .force => stepSignals s l
    | .fetchCheck | .fetchGate .. | .reply _ | .fetchFail | .fetchCount | .fetchSpawn | .fetchNext =>
      stepFetch cfg s l
    | .tick | .recoveryCheck | .recoveryGate .. | .pageCount | .pageSpawn | .pageEnd _ => stepRecovery s l
    | .finish _ | .drop _ => stepDispatch s l
    | .stop | .look | .wake | .leave | .exit => stepMain cfg s l

/-- The runs of a worker from its start. -/
def system (cfg : DrainCfg) : System State Label where
  init s := ∃ now, s = { now := now }
  step := step cfg

/-! ### The invariant -/

/-- A dispatch that `run_worker` waits for. -/
def Dispatched.isLive (d : Dispatched) : Bool := d.status != .gone

/-- The dispatches that are counted and not spawned yet. -/
def Fetching.counting : Fetching → ℕ
  | .spawning _ => 1
  | _ => 0

def Recovering.counting : Recovering → ℕ
  | .spawning _ => 1
  | _ => 0

/-- What the loop may still count before it looks at the shutdown again. -/
def Fetching.room (cfg : DrainCfg) : Fetching → ℕ
  | .passed => cfg.maxRead
  | .reading n | .dispatching n | .spawning n => n
  | .top | .stopped => 0

def Recovering.room : Recovering → ℕ
  | .admitting => RECOVERY_SCAN_BATCH
  | .page n | .spawning n => n
  | .idle | .sweeping => 0

/-- The signals that the signal task has received, at least. -/
def Signals.taken : Signals → ℕ
  | .waiting => 0
  | .received | .sent | .draining _ => 1
  | .forcing .. => 2

/-- It has sent the shutdown. -/
def Signals.told : Signals → Bool
  | .waiting | .received => false
  | _ => true

/-- What holds of the signal task. -/
structure SignalsOk (now : ℕ) (term int shutdown : Bool) (raised : ℕ) (signals : Signals) : Prop where
  counted : term.toNat + int.toNat + signals.taken ≤ raised
  kept : 0 < raised → signals.taken = 0 → (term || int) = true
  shutdown : shutdown = signals.told
  first : ∀ first, signals = .draining first → first ≤ now
  gap : ∀ first second, signals = .forcing first second →
    first + SECOND_SIGNAL_MIN_GAP ≤ second ∧ second ≤ now

/-- The deadline has passed, or the recovery loop has counted a dispatch of its last page after `run_worker` had
found none in flight. -/
def State.Late (cfg : DrainCfg) (s : State) (since : ℕ) : Prop :=
  cfg.deadline since ≤ s.now ∨ 0 < s.raced

/-- What `run_worker` has decided on. -/
structure DecidedOk (late : Prop) (dispatched : List Dispatched) (seen : ℕ) (left : ℤ) : Prop where
  nonneg : 0 ≤ left
  late : 0 < left → late
  gone : left ≤ 0 → ∀ i d, i < seen → dispatched[i]? = some d → d.status = .gone
  fetched : ∀ i d, dispatched[i]? = some d → d.origin = .fetch → i < seen
  seen : seen ≤ dispatched.length

/-- Where `run_worker` is. -/
def MainOk (late : ℕ → Prop) (fetch : Fetching) (inflightTotal : ℤ) (dispatched : List Dispatched) (seen : ℕ) :
    Main → Prop
  | .fetching => True
  | .looking _ | .sleeping .. => fetch = .stopped
  | .leaving since => fetch = .stopped ∧ (inflightTotal = 0 ∨ late since)
  | .decided since left => fetch = .stopped ∧ DecidedOk (late since) dispatched seen left

/-- What an exit says. -/
def Exit.Ok (cfg : DrainCfg) (s : State) (e : Exit) : Prop :=
  e.at_ = s.now ∧ (e.code = 130 ∧ (∃ first second, s.signals = .forcing first second) ∨
    e.code = PANIC_EXIT_CODE ∧ s.fetch = .stopped ∧ INSTANT_MAX < cfg.deadline e.at_ ∨
    ∃ since left, s.main = .decided since left ∧ e.code = if 0 < left then DRAIN_TIMEOUT_EXIT_CODE else 0)

/-- **What holds in every reachable state.** -/
structure DrainOk (cfg : DrainCfg) (s : State) : Prop where
  count : s.inflightTotal = s.dispatched.countP Dispatched.isLive + s.fetch.counting + s.recovery.counting
  fetched : s.lateFetched + s.fetch.room cfg ≤ cfg.maxRead
  recovered : s.lateRecovered + s.recovery.room ≤ RECOVERY_SCAN_BATCH
  early : s.shutdown = false → s.lateFetched = 0 ∧ s.lateRecovered = 0
  raced : s.raced ≤ s.lateRecovered
  stopped : s.fetch = .stopped → s.shutdown = true
  signals : SignalsOk s.now s.term s.int s.shutdown s.raised s.signals
  main : MainOk (s.Late cfg) s.fetch s.inflightTotal s.dispatched s.seen s.main
  exited : ∀ e, s.exited = some e → e.Ok cfg s

section Invariant

variable {cfg : DrainCfg} {s s' : State} {l : Label}

theorem perStream_mul_streams_le (cfg : DrainCfg) (permits : ℕ) :
    cfg.perStream permits * cfg.streams ≤ cfg.maxRead := by
  rcases le_total (min cfg.batch permits / cfg.streams) 1 with h | h
  · rw [FetchCfg.perStream, max_eq_right h, Nat.one_mul]
    exact le_max_right _ _
  · rw [FetchCfg.perStream, max_eq_left h]
    exact (Nat.div_mul_le_self _ _).trans ((min_le_left _ _).trans (le_max_left _ _))

/-- Until `fetch_loop` has stopped, `run_worker` waits for it. -/
theorem DrainOk.main_eq (h : DrainOk cfg s) (hfetch : s.fetch ≠ .stopped) : s.main = .fetching := by
  have hmain := h.main
  cases hm : s.main with
  | fetching => rfl
  | looking since =>
    rw [hm] at hmain
    exact absurd hmain hfetch
  | sleeping since wake =>
    rw [hm] at hmain
    exact absurd hmain hfetch
  | leaving since =>
    rw [hm] at hmain
    exact absurd hmain.1 hfetch
  | decided since left =>
    rw [hm] at hmain
    exact absurd hmain.1 hfetch

/-- What `run_worker` relies on while it waits for `fetch_loop`. -/
theorem DrainOk.main_of_fetch (h : DrainOk cfg s) (hfetch : s.fetch ≠ .stopped) {late : ℕ → Prop}
    {fetch : Fetching} {inflightTotal : ℤ} {dispatched : List Dispatched} {seen : ℕ} :
    MainOk late fetch inflightTotal dispatched seen s.main := by
  rw [h.main_eq hfetch]
  trivial

/-- A dispatch that is counted uses up room, late or not. -/
theorem late_count {late rest bound : ℕ} (shutdown : Bool) (h : late + (rest + 1) ≤ bound) :
    late + shutdown.toNat + rest ≤ bound := by
  have hle := Bool.toNat_le shutdown
  omega

theorem early_count {late : ℕ} {shutdown : Bool} (hlate : late = 0) (h : shutdown = false) :
    late + shutdown.toNat = 0 := by
  rw [hlate, h]
  rfl

/-- A dispatch that is spawned is live. -/
theorem countP_spawned (dispatched : List Dispatched) (origin : Origin) :
    (dispatched ++ [({ origin := origin } : Dispatched)]).countP Dispatched.isLive =
      dispatched.countP Dispatched.isLive + 1 := by
  have hlive : Dispatched.isLive { origin := origin } = true := rfl
  rw [List.countP_append, List.countP_singleton, if_pos hlive]

/-- `run_worker` leaves its loop after the shutdown was sent. -/
theorem DrainOk.shutdown_of_leaving (h : DrainOk cfg s) (hleaving : s.main.isLeaving = true) :
    s.shutdown = true := by
  have hmain := h.main
  cases hst : s.main with
  | leaving since =>
    rw [hst] at hmain
    exact h.stopped hmain.1
  | _ => simp [hst, Main.isLeaving] at hleaving

/-- A dispatch that is counted while `run_worker` leaves is a late one. -/
theorem DrainOk.raced_count (h : DrainOk cfg s) :
    s.raced + s.main.isLeaving.toNat ≤ s.lateRecovered + s.shutdown.toNat := by
  cases hleaving : s.main.isLeaving with
  | true =>
    rw [h.shutdown_of_leaving hleaving]
    exact Nat.add_le_add_right h.raced _
  | false => exact h.raced.trans (Nat.le_add_right _ _)

theorem not_exited (hrun : s.exited = none) {P : Exit → Prop} : ∀ e, s.exited = some e → P e := by
  rw [hrun]
  nofun

theorem Signals.one_le_taken {signals : Signals} (h : signals.told = true) : 1 ≤ signals.taken := by
  cases signals with
  | waiting => cases h
  | received => cases h
  | sent => exact le_rfl
  | draining first => exact le_rfl
  | forcing first second => exact Nat.le_succ 1

theorem raise_kept : ∀ term int b : Bool, ((term || !b) || (int || b)) = true := by
  decide

theorem toNat_raise : ∀ term int b : Bool,
    (term || !b).toNat + (int || b).toNat ≤ term.toNat + int.toNat + 1 := by
  decide

theorem toNat_receive : ∀ term int b : Bool, (if b then int else term) = true →
    (term && b).toNat + (int && !b).toNat + 1 = term.toNat + int.toNat := by
  decide

/-- A step of the signal task that does not send the shutdown. -/
theorem DrainOk.withSignals (h : DrainOk cfg s) (hrun : s.exited = none) {term int : Bool} {raised : ℕ}
    {signals : Signals} (hsignals : SignalsOk s.now term int s.shutdown raised signals) :
    DrainOk cfg { s with term := term, int := int, raised := raised, signals := signals } :=
  ⟨h.count, h.fetched, h.recovered, h.early, h.raced, h.stopped, hsignals, h.main, not_exited hrun⟩

/-- The signal task. -/
theorem DrainOk.step_signals (h : DrainOk cfg s) (hrun : s.exited = none) (hs : stepSignals s l = some s') :
    DrainOk cfg s' := by
  obtain ⟨hraised, hkept, hshutdown, hfirst, hgap⟩ := h.signals
  cases l with
  | raise int =>
    cases hs
    refine h.withSignals hrun ⟨?_, fun _ _ => raise_kept .., hshutdown, hfirst, hgap⟩
    have hset := toNat_raise s.term s.int int
    show (s.term || !int).toNat + (s.int || int).toNat + s.signals.taken ≤ s.raised + 1
    omega
  | receive int =>
    obtain ⟨hset, hs⟩ := Option.ite_none_right_eq_some.1 hs
    have htaken := toNat_receive s.term s.int int hset
    split at hs
    · next hst =>
      cases hs
      have hst : s.signals = .waiting := hst
      rw [hst, Signals.taken] at hraised
      rw [hst] at hshutdown
      refine h.withSignals hrun ⟨?_, nofun, hshutdown, nofun, nofun⟩
      show (s.term && int).toNat + (s.int && !int).toNat + 1 ≤ s.raised
      omega
    · next first hst =>
      have hst : s.signals = .draining first := hst
      have hraised' : (s.term && int).toNat + (s.int && !int).toNat + 2 ≤ s.raised := by
        rw [hst, Signals.taken] at hraised
        omega
      have hle := hfirst first hst
      split_ifs at hs with hgap'
      · cases hs
        rw [hst] at hshutdown
        refine h.withSignals hrun ⟨hraised', nofun, hshutdown, nofun, ?_⟩
        intro first' second hf
        cases hf
        have hgap' : SECOND_SIGNAL_MIN_GAP ≤ s.now - first := hgap'
        exact ⟨show first + SECOND_SIGNAL_MIN_GAP ≤ s.now by omega, le_rfl⟩
      · cases hs
        refine h.withSignals hrun ⟨?_, fun _ hnone => ?_, hshutdown, hfirst, hgap⟩
        · show (s.term && int).toNat + (s.int && !int).toNat + s.signals.taken ≤ s.raised
          omega
        · rw [hst] at hnone
          cases hnone
    · cases hs
  | send =>
    simp only [stepSignals] at hs
    split at hs
    · next hst =>
      cases hs
      refine ⟨h.count, h.fetched, h.recovered, nofun, h.raced, fun _ => rfl, ⟨?_, nofun, rfl, nofun, nofun⟩,
        h.main, not_exited hrun⟩
      rw [hst] at hraised
      exact hraised
    · cases hs
  | begin =>
    simp only [stepSignals] at hs
    split at hs
    · next hst =>
      cases hs
      rw [hst] at hraised hshutdown
      refine h.withSignals hrun ⟨hraised, nofun, hshutdown, fun first hf => ?_, nofun⟩
      cases hf
      exact le_rfl
    · cases hs
  | force =>
    simp only [stepSignals] at hs
    split at hs
    · next first second hst =>
      cases hs
      refine ⟨h.count, h.fetched, h.recovered, h.early, h.raced, h.stopped, h.signals, h.main, fun e he => ?_⟩
      cases he
      exact ⟨rfl, .inl ⟨rfl, first, second, hst⟩⟩
    · cases hs
  | _ => cases hs

/-- A step of `fetch_loop` that counts and spawns nothing. -/
theorem DrainOk.moves (h : DrainOk cfg s) (hrun : s.exited = none) {fetch : Fetching}
    (hfetch : s.fetch ≠ .stopped) (hcount : s.fetch.counting = fetch.counting)
    (hroom : s.lateFetched + fetch.room cfg ≤ cfg.maxRead) (hstopped : fetch = .stopped → s.shutdown = true) :
    DrainOk cfg { s with fetch := fetch } := by
  refine ⟨?_, hroom, h.recovered, h.early, h.raced, hstopped, h.signals, h.main_of_fetch hfetch,
    not_exited hrun⟩
  show s.inflightTotal = s.dispatched.countP Dispatched.isLive + fetch.counting + s.recovery.counting
  rw [← hcount]
  exact h.count

/-- `fetch_loop`. -/
theorem DrainOk.step_fetch (h : DrainOk cfg s) (hrun : s.exited = none) (hs : stepFetch cfg s l = some s') :
    DrainOk cfg s' := by
  have hroom := h.fetched
  cases l with
  | fetchCheck =>
    simp only [stepFetch] at hs
    split at hs
    · next hst =>
      cases hs
      have hne : s.fetch ≠ .stopped := by rw [hst]; nofun
      rw [hst] at hroom
      split_ifs with hshutdown
      · exact h.moves hrun hne (by rw [hst]; rfl) hroom fun _ => hshutdown
      · refine h.moves hrun hne (by rw [hst]; rfl) ?_ nofun
        rw [(h.early (by simpa using hshutdown)).1]
        exact (Nat.zero_add _).le
    · cases hs
  | fetchGate permits backlog =>
    simp only [stepFetch] at hs
    split at hs
    · next hst =>
      cases hs
      have hne : s.fetch ≠ .stopped := by rw [hst]; nofun
      rw [hst] at hroom
      split_ifs
      · exact h.moves hrun hne (by rw [hst]; rfl) ((Nat.le_add_right _ _).trans hroom) nofun
      · refine h.moves hrun hne (by rw [hst]; rfl) ?_ nofun
        exact (Nat.add_le_add_left (perStream_mul_streams_le cfg permits) _).trans hroom
    · cases hs
  | reply n =>
    simp only [stepFetch] at hs
    split at hs
    · next room hst =>
      obtain ⟨hn, hs⟩ := Option.ite_none_right_eq_some.1 hs
      cases hs
      rw [hst] at hroom
      exact h.moves hrun (by rw [hst]; nofun) (by rw [hst]; rfl) ((Nat.add_le_add_left hn _).trans hroom) nofun
    · cases hs
  | fetchFail =>
    simp only [stepFetch] at hs
    split at hs
    · next room hst =>
      cases hs
      rw [hst] at hroom
      exact h.moves hrun (by rw [hst]; nofun) (by rw [hst]; rfl) ((Nat.le_add_right _ _).trans hroom) nofun
    · cases hs
  | fetchCount =>
    simp only [stepFetch] at hs
    split at hs
    · next rest hst =>
      cases hs
      have hcount := h.count
      rw [hst] at hroom hcount
      refine ⟨?_, late_count s.shutdown hroom, h.recovered, fun hshutdown => ?_, h.raced, nofun, h.signals,
        h.main_of_fetch (by rw [hst]; nofun), not_exited hrun⟩
      · show s.inflightTotal + 1 = s.dispatched.countP Dispatched.isLive + 1 + s.recovery.counting
        have hcount : s.inflightTotal = s.dispatched.countP Dispatched.isLive + 0 + s.recovery.counting := hcount
        omega
      · obtain ⟨hfetched, hrecovered⟩ := h.early hshutdown
        exact ⟨early_count hfetched hshutdown, hrecovered⟩
    · cases hs
  | fetchSpawn =>
    simp only [stepFetch] at hs
    split at hs
    · next rest hst =>
      cases hs
      have hcount := h.count
      rw [hst] at hroom hcount
      refine ⟨?_, hroom, h.recovered, h.early, h.raced, nofun, h.signals,
        h.main_of_fetch (by rw [hst]; nofun), not_exited hrun⟩
      have hcount : s.inflightTotal = s.dispatched.countP Dispatched.isLive + 1 + s.recovery.counting := hcount
      show s.inflightTotal =
        (s.dispatched ++ [({ origin := .fetch } : Dispatched)]).countP Dispatched.isLive + 0 + s.recovery.counting
      rw [countP_spawned]
      exact hcount
    · cases hs
  | fetchNext =>
    simp only [stepFetch] at hs
    split at hs
    · next hst =>
      cases hs
      rw [hst] at hroom
      exact h.moves hrun (by rw [hst]; nofun) (by rw [hst]; rfl) hroom nofun
    · cases hs
  | _ => cases hs

/-- What `run_worker` relies on stays as it is when a dispatch ends or the recovery loop spawns one. -/
theorem MainOk.mono {late late' : ℕ → Prop} {fetch : Fetching} {inflightTotal inflightTotal' : ℤ}
    {dispatched dispatched' : List Dispatched} {seen : ℕ} {main : Main}
    (h : MainOk late fetch inflightTotal dispatched seen main) (hlate : ∀ since, late since → late' since)
    (hinflight : ∀ since, main = .leaving since → inflightTotal = 0 → inflightTotal' = 0 ∨ late' since)
    (hlen : dispatched.length ≤ dispatched'.length)
    (hdispatched : ∀ i d', dispatched'[i]? = some d' →
      (∃ d, dispatched[i]? = some d ∧ d.origin = d'.origin ∧ (d.status = .gone → d'.status = .gone)) ∨
        d'.origin = .recovery ∧ dispatched.length ≤ i) :
    MainOk late' fetch inflightTotal' dispatched' seen main := by
  cases main with
  | fetching => trivial
  | looking since => exact h
  | sleeping since wake => exact h
  | leaving since =>
    obtain ⟨hstopped, hzero | hl⟩ := h
    · exact ⟨hstopped, hinflight since rfl hzero⟩
    · exact ⟨hstopped, .inr (hlate since hl)⟩
  | decided since left =>
    obtain ⟨hstopped, hnonneg, hl, hgone, hfetched, hseen⟩ := h
    refine ⟨hstopped, hnonneg, fun hpos => hlate since (hl hpos), fun hle i d' hi hd' => ?_,
      fun i d' hd' ho => ?_, hseen.trans hlen⟩
    · rcases hdispatched i d' hd' with ⟨d, hd, -, hstatus⟩ | ⟨-, hlt⟩
      · exact hstatus (hgone hle i d hi hd)
      · omega
    · rcases hdispatched i d' hd' with ⟨d, hd, horigin, -⟩ | ⟨hrecovery, -⟩
      · exact hfetched i d hd (horigin.trans ho)
      · rw [hrecovery] at ho
        cases ho

/-- A step of `recovery_loop` that counts and spawns nothing. -/
theorem DrainOk.moves_recovery (h : DrainOk cfg s) (hrun : s.exited = none) {recovery : Recovering}
    (hcount : s.recovery.counting = recovery.counting)
    (hroom : s.lateRecovered + recovery.room ≤ RECOVERY_SCAN_BATCH) :
    DrainOk cfg { s with recovery := recovery } := by
  refine ⟨?_, h.fetched, hroom, h.early, h.raced, h.stopped, h.signals, h.main, not_exited hrun⟩
  show s.inflightTotal = s.dispatched.countP Dispatched.isLive + s.fetch.counting + recovery.counting
  rw [← hcount]
  exact h.count

/-- `recovery_loop`. -/
theorem DrainOk.step_recovery (h : DrainOk cfg s) (hrun : s.exited = none) (hs : stepRecovery s l = some s') :
    DrainOk cfg s' := by
  have hroom := h.recovered
  cases l with
  | tick =>
    simp only [stepRecovery] at hs
    split at hs
    · next hst =>
      cases hs
      rw [hst] at hroom
      split_ifs
      · exact h.moves_recovery hrun (by rw [hst]) hroom
      · exact h.moves_recovery hrun (by rw [hst]; rfl) hroom
    · cases hs
  | recoveryCheck =>
    simp only [stepRecovery] at hs
    split at hs
    · next hst =>
      cases hs
      rw [hst] at hroom
      split_ifs with hshutdown
      · exact h.moves_recovery hrun (by rw [hst]; rfl) hroom
      · refine h.moves_recovery hrun (by rw [hst]; rfl) ?_
        rw [(h.early (by simpa using hshutdown)).2]
        exact (Nat.zero_add _).le
    · cases hs
  | recoveryGate permits backlog =>
    simp only [stepRecovery] at hs
    split at hs
    · next hst =>
      cases hs
      rw [hst] at hroom
      split_ifs
      · exact h.moves_recovery hrun (by rw [hst]; rfl)
          ((Nat.add_le_add_left (Nat.min_le_right _ _) _).trans hroom)
      · exact h.moves_recovery hrun (by rw [hst]; rfl) ((Nat.le_add_right _ _).trans hroom)
    · cases hs
  | pageCount =>
    simp only [stepRecovery] at hs
    split at hs
    · next room hst =>
      cases hs
      have hcount := h.count
      rw [hst] at hroom hcount
      refine ⟨?_, h.fetched, late_count s.shutdown hroom, fun hshutdown => ?_, h.raced_count, h.stopped,
        h.signals, ?_, not_exited hrun⟩
      · have hcount : s.inflightTotal =
            s.dispatched.countP Dispatched.isLive + s.fetch.counting + (0 : ℕ) := hcount
        show s.inflightTotal + 1 = s.dispatched.countP Dispatched.isLive + s.fetch.counting + (1 : ℕ)
        omega
      · obtain ⟨hfetched, hrecovered⟩ := h.early hshutdown
        exact ⟨hfetched, early_count hrecovered hshutdown⟩
      · refine h.main.mono (fun since hlate => hlate.imp id fun hpos => hpos.trans_le (Nat.le_add_right _ _))
          (fun since hst _ => .inr (.inr ?_)) le_rfl fun i d hd => .inl ⟨d, hd, rfl, id⟩
        show 0 < s.raced + s.main.isLeaving.toNat
        rw [hst]
        exact Nat.succ_pos _
    · cases hs
  | pageSpawn =>
    simp only [stepRecovery] at hs
    split at hs
    · next room hst =>
      cases hs
      have hcount := h.count
      rw [hst] at hroom hcount
      refine ⟨?_, h.fetched, hroom, h.early, h.raced, h.stopped, h.signals, ?_, not_exited hrun⟩
      · have hcount : s.inflightTotal =
            s.dispatched.countP Dispatched.isLive + s.fetch.counting + (1 : ℕ) := hcount
        show s.inflightTotal = (s.dispatched ++ [({ origin := .recovery } : Dispatched)]).countP
          Dispatched.isLive + s.fetch.counting + (0 : ℕ)
        rw [countP_spawned]
        omega
      · refine h.main.mono (fun _ => id) (fun _ _ hzero => .inl hzero) (by simp) fun i d hd => ?_
        rcases Parties.getElem?_concat_eq_some.1 hd with hd | ⟨hi, rfl⟩
        · exact .inl ⟨d, hd, rfl, id⟩
        · exact .inr ⟨rfl, hi.ge⟩
    · cases hs
  | pageEnd more =>
    simp only [stepRecovery] at hs
    split at hs
    · next room hst =>
      cases hs
      rw [hst] at hroom
      split_ifs
      · exact h.moves_recovery hrun (by rw [hst]; rfl) ((Nat.le_add_right _ _).trans hroom)
      · exact h.moves_recovery hrun (by rw [hst]; rfl) ((Nat.le_add_right _ _).trans hroom)
    · cases hs
  | _ => cases hs

/-- A dispatch moves on, and one that is gone does not. -/
theorem DrainOk.put (h : DrainOk cfg s) (hrun : s.exited = none) {i : ℕ} {d : Dispatched} {k : ℤ}
    (status : Status)
    (hd : s.dispatched[i]? = some d) (hstatus : d.status ≠ .gone)
    (hk : s.inflightTotal + k = (s.dispatched.set i { d with status := status }).countP Dispatched.isLive +
      s.fetch.counting + s.recovery.counting) :
    DrainOk cfg { s with
      dispatched := s.dispatched.set i { d with status := status }
      inflightTotal := s.inflightTotal + k } := by
  refine ⟨hk, h.fetched, h.recovered, h.early, h.raced, h.stopped, h.signals, ?_, not_exited hrun⟩
  refine h.main.mono (fun _ => id) (fun _ _ hzero => ?_) (by simp) fun j d' hd' => .inl ?_
  · -- the dispatch that moves is in flight
    have hpos : 0 < s.dispatched.countP Dispatched.isLive :=
      List.countP_pos_iff.2 ⟨d, List.mem_of_getElem? hd, by simpa [Dispatched.isLive] using hstatus⟩
    have hcount := h.count
    omega
  · by_cases hij : i = j
    · subst hij
      rw [List.getElem?_set_self (List.getElem?_eq_some_iff.1 hd).1, Option.some.injEq] at hd'
      exact ⟨d, hd, by rw [← hd'], fun hgone => absurd hgone hstatus⟩
    · rw [List.getElem?_set_ne hij] at hd'
      exact ⟨d', hd', rfl, id⟩

/-- A dispatch. -/
theorem DrainOk.step_dispatch (h : DrainOk cfg s) (hrun : s.exited = none) (hs : stepDispatch s l = some s') :
    DrainOk cfg s' := by
  have hcount := h.count
  cases l with
  | finish i =>
    obtain ⟨d, hd, hs⟩ := Option.bind_eq_some_iff.1 hs
    have hset := Parties.countP_set_add Dispatched.isLive hd { d with status := .finished }
    split at hs
    · next hst =>
      cases hs
      rw [show d.isLive = true by rw [Dispatched.isLive, hst]; rfl] at hset
      have hput := h.put hrun (k := 0) .finished hd (by rw [hst]; nofun) (by
        rw [Int.add_zero, hcount]
        have hlive : Dispatched.isLive { d with status := .finished } = true := rfl
        rw [hlive] at hset
        omega)
      rw [Int.add_zero] at hput
      exact hput
    · cases hs
  | drop i =>
    obtain ⟨d, hd, hs⟩ := Option.bind_eq_some_iff.1 hs
    have hset := Parties.countP_set_add Dispatched.isLive hd { d with status := .gone }
    split at hs
    · next hst =>
      cases hs
      rw [show d.isLive = true by rw [Dispatched.isLive, hst]; rfl, Bool.toNat_true] at hset
      refine h.put hrun (k := -1) .gone hd (by rw [hst]; nofun) ?_
      have hlive : (Dispatched.isLive { d with status := .gone }).toNat = 0 := rfl
      omega
    · cases hs
  | _ => cases hs

theorem DrainOk.inflight_nonneg (h : DrainOk cfg s) : 0 ≤ s.inflightTotal := by
  rw [h.count]
  omega

/-- If nothing is counted, every dispatch so far is gone. -/
theorem DrainOk.gone (h : DrainOk cfg s) (hle : s.inflightTotal ≤ 0) {d : Dispatched} (hd : d ∈ s.dispatched) :
    d.status = .gone := by
  have hcount := h.count
  have hzero : s.dispatched.countP Dispatched.isLive = 0 := by omega
  simpa [Dispatched.isLive] using List.countP_eq_zero.1 hzero d hd

/-- A step of `run_worker` that does not end the process. -/
theorem DrainOk.withMain (h : DrainOk cfg s) (hrun : s.exited = none) {main : Main} {seen : ℕ}
    (hmain : MainOk (s.Late cfg) s.fetch s.inflightTotal s.dispatched seen main) :
    DrainOk cfg { s with main := main, seen := seen } :=
  ⟨h.count, h.fetched, h.recovered, h.early, h.raced, h.stopped, h.signals, hmain, not_exited hrun⟩

/-- `run_worker`. -/
theorem DrainOk.step_main (h : DrainOk cfg s) (hrun : s.exited = none) (hs : stepMain cfg s l = some s') :
    DrainOk cfg s' := by
  have hmain := h.main
  cases l with
  | stop =>
    simp only [stepMain] at hs
    split at hs
    · next hst hfetch =>
      split_ifs at hs with hrange <;> cases hs
      · exact h.withMain hrun hfetch
      · refine ⟨h.count, h.fetched, h.recovered, h.early, h.raced, h.stopped, h.signals, hmain, fun e he => ?_⟩
        cases he
        exact ⟨rfl, .inr (.inl ⟨rfl, hfetch, not_le.1 hrange⟩)⟩
    · cases hs
  | look =>
    simp only [stepMain] at hs
    split at hs
    · next since hst =>
      cases hs
      rw [hst] at hmain
      refine h.withMain hrun ?_
      split_ifs with hsome
      · exact hmain
      · refine ⟨hmain, ?_⟩
        have hnonneg := h.inflight_nonneg
        by_cases hpos : 0 < s.inflightTotal
        · exact .inr (.inl (not_lt.1 fun hlt => hsome ⟨hpos, hlt⟩))
        · exact .inl (by omega)
    · cases hs
  | wake =>
    simp only [stepMain] at hs
    split at hs
    · next since wake hst =>
      obtain ⟨-, hs⟩ := Option.ite_none_right_eq_some.1 hs
      cases hs
      rw [hst] at hmain
      exact h.withMain hrun hmain
    · cases hs
  | leave =>
    simp only [stepMain] at hs
    split at hs
    · next since hst =>
      cases hs
      rw [hst] at hmain
      obtain ⟨hstopped, hlate⟩ := hmain
      refine h.withMain hrun ⟨hstopped, ?_⟩
      refine ⟨h.inflight_nonneg, fun hpos => hlate.resolve_left hpos.ne', fun hle i d _ hd => ?_,
        fun i d hd _ => ?_, le_rfl⟩
      · exact h.gone hle (List.mem_of_getElem? hd)
      · exact (List.getElem?_eq_some_iff.1 hd).1
    · cases hs
  | exit =>
    simp only [stepMain] at hs
    split at hs
    · next since left hst =>
      cases hs
      refine ⟨h.count, h.fetched, h.recovered, h.early, h.raced, h.stopped, h.signals, hmain, fun e he => ?_⟩
      cases he
      exact ⟨rfl, .inr (.inr ⟨since, left, hst, rfl⟩)⟩
    · cases hs
  | _ => cases hs

theorem DrainOk.init (now : ℕ) : DrainOk cfg { now := now } where
  count := rfl
  fetched := Nat.zero_le _
  recovered := Nat.zero_le _
  early _ := ⟨rfl, rfl⟩
  raced := le_rfl
  stopped := nofun
  signals := ⟨le_rfl, nofun, rfl, nofun, nofun⟩
  main := trivial
  exited := nofun

/-- The step lemma. -/
theorem DrainOk.step (h : DrainOk cfg s) (hs : Drain.step cfg s l = some s') : DrainOk cfg s' := by
  obtain ⟨hrun, hs⟩ := Option.ite_none_left_eq_some.1 hs
  have hrun : s.exited = none := by simpa using hrun
  cases l with
  | time d =>
    cases hs
    obtain ⟨hraised, hkept, hshutdown, hfirst, hgap⟩ := h.signals
    have hle : s.now ≤ s.now + d := Nat.le_add_right _ _
    refine ⟨h.count, h.fetched, h.recovered, h.early, h.raced, h.stopped,
      ⟨hraised, hkept, hshutdown, fun first hf => ?_, fun first second hf => ?_⟩, ?_, not_exited hrun⟩
    · exact (hfirst first hf).trans hle
    · exact ⟨(hgap first second hf).1, (hgap first second hf).2.trans hle⟩
    · exact h.main.mono (fun _ hlate => hlate.imp_left fun hpast => hpast.trans hle)
        (fun _ _ hzero => .inl hzero) le_rfl fun i d hd => .inl ⟨d, hd, rfl, id⟩
  | raise | receive | send | begin | force => exact h.step_signals hrun hs
  | fetchCheck | fetchGate | reply | fetchFail | fetchCount | fetchSpawn | fetchNext =>
    exact h.step_fetch hrun hs
  | tick | recoveryCheck | recoveryGate | pageCount | pageSpawn | pageEnd => exact h.step_recovery hrun hs
  | finish | drop => exact h.step_dispatch hrun hs
  | stop | look | wake | leave | exit => exact h.step_main hrun hs

theorem DrainOk.of_reachable {C : State → Label → Prop} (h : (system cfg).Reachable C s) : DrainOk cfg s :=
  h.invariant (by rintro s ⟨now, rfl⟩; exact .init now) fun _ _ _ hI _ hs => hI.step hs

end Invariant

/-! ### The end of a drain -/

/-- Time does not pass `run_worker` by when it has something to do. -/
def timely : State → Label → Prop
  | s, .time d =>
    match s.main with
    | .fetching => True
    | .sleeping _ wake => s.now + d ≤ wake
    | _ => d = 0
  | _, _ => True

/-- No further signal, and time does not pass `run_worker` by. -/
def own (s : State) (l : Label) : Prop := timely s l ∧ ∀ int, l ≠ .raise int

/-- How late `run_worker` may be. -/
def PromptOk (cfg : DrainCfg) (now : ℕ) : Main → Prop
  | .fetching => True
  | .looking since | .leaving since | .decided since _ => now ≤ cfg.deadline since + DRAIN_POLL
  | .sleeping since wake => now ≤ wake ∧ wake ≤ cfg.deadline since + DRAIN_POLL

section Timely

variable {cfg : DrainCfg} {s s' : State} {l : Label}

theorem stepSignals_frame (hs : stepSignals s l = some s') : s'.now = s.now ∧ s'.main = s.main := by
  cases l <;> grind [stepSignals]

theorem stepFetch_frame (hs : stepFetch cfg s l = some s') : s'.now = s.now ∧ s'.main = s.main := by
  cases l <;> grind [stepFetch]

theorem stepRecovery_frame (hs : stepRecovery s l = some s') : s'.now = s.now ∧ s'.main = s.main := by
  cases l <;> grind [stepRecovery]

theorem stepDispatch_frame (hs : stepDispatch s l = some s') : s'.now = s.now ∧ s'.main = s.main := by
  cases l <;> grind [stepDispatch]

theorem PromptOk.step_main (h : PromptOk cfg s.now s.main) (hs : stepMain cfg s l = some s') :
    PromptOk cfg s'.now s'.main := by
  cases l with
  | stop =>
    simp only [stepMain] at hs
    split at hs
    · next hst hfetch =>
      split_ifs at hs <;> cases hs
      · exact (Nat.le_add_right _ _).trans (Nat.le_add_right _ _)
      · exact h
    · cases hs
  | look =>
    simp only [stepMain] at hs
    split at hs
    · next since hst =>
      cases hs
      rw [hst] at h
      dsimp only
      split_ifs with hsome
      · exact ⟨Nat.le_add_right _ _, Nat.add_le_add_right hsome.2.le _⟩
      · exact h
    · cases hs
  | wake =>
    simp only [stepMain] at hs
    split at hs
    · next since wake hst =>
      obtain ⟨-, hs⟩ := Option.ite_none_right_eq_some.1 hs
      cases hs
      rw [hst] at h
      exact h.1.trans h.2
    · cases hs
  | leave =>
    simp only [stepMain] at hs
    split at hs
    · next since hst =>
      cases hs
      rw [hst] at h
      exact h
    · cases hs
  | exit =>
    simp only [stepMain] at hs
    split at hs
    · cases hs
      exact h
    · cases hs
  | _ => cases hs

theorem PromptOk.step (h : PromptOk cfg s.now s.main) (htimely : timely s l)
    (hs : Drain.step cfg s l = some s') : PromptOk cfg s'.now s'.main := by
  obtain ⟨-, hs⟩ := Option.ite_none_left_eq_some.1 hs
  have hframe : s'.now = s.now ∧ s'.main = s.main → PromptOk cfg s'.now s'.main := by
    rintro ⟨hnow, hmain⟩
    rw [hnow, hmain]
    exact h
  cases l with
  | time d =>
    cases hs
    show PromptOk cfg (s.now + d) s.main
    simp only [timely] at htimely
    cases hst : s.main with
    | fetching => trivial
    | sleeping since wake =>
      rw [hst] at h htimely
      exact ⟨htimely, h.2⟩
    | looking since | leaving since | decided since left =>
      rw [hst] at h htimely
      obtain rfl : d = 0 := htimely
      exact h
  | raise | receive | send | begin | force => exact hframe (stepSignals_frame hs)
  | fetchCheck | fetchGate | reply | fetchFail | fetchCount | fetchSpawn | fetchNext =>
    exact hframe (stepFetch_frame hs)
  | tick | recoveryCheck | recoveryGate | pageCount | pageSpawn | pageEnd => exact hframe (stepRecovery_frame hs)
  | finish | drop => exact hframe (stepDispatch_frame hs)
  | stop | look | wake | leave | exit => exact h.step_main hs

theorem PromptOk.of_reachable (h : (system cfg).Reachable timely s) : PromptOk cfg s.now s.main := by
  refine h.invariant (I := fun s => PromptOk cfg s.now s.main) ?_ fun _ _ _ hI hC hs => hI.step hC hs
  rintro s ⟨now, rfl⟩
  trivial

end Timely

section Progress

variable {cfg : DrainCfg} {s s' : State} {l : Label}

/-- The worker can end by its own steps. -/
def Ends (cfg : DrainCfg) (s : State) : Prop := ∃ t, (system cfg).Reach own s t ∧ t.exited ≠ none

theorem Ends.of_step (hs : step cfg s l = some s') (hl : own s l) (h : Ends cfg s') : Ends cfg s := by
  obtain ⟨t, ht, hexit⟩ := h
  have hfirst : (system cfg).Reach own s s' := System.Reach.refl.tail hl hs
  exact ⟨t, hfirst.trans ht, hexit⟩

theorem step_main_eq (hrun : s.exited = none) (hs : stepMain cfg s l = some s') : step cfg s l = some s' := by
  unfold step
  rw [if_neg (by rw [hrun]; nofun)]
  cases l <;> first | exact hs | cases hs

theorem step_signals_eq (hrun : s.exited = none) (hs : stepSignals s l = some s') :
    step cfg s l = some s' := by
  unfold step
  rw [if_neg (by rw [hrun]; nofun)]
  cases l <;> first | exact hs | cases hs

theorem step_fetch_eq (hrun : s.exited = none) (hs : stepFetch cfg s l = some s') : step cfg s l = some s' := by
  unfold step
  rw [if_neg (by rw [hrun]; nofun)]
  cases l <;> first | exact hs | cases hs

theorem step_time (hrun : s.exited = none) (d : ℕ) :
    step cfg s (.time d) = some { s with now := s.now + d } := by
  rw [step, if_neg (by rw [hrun]; nofun)]

theorem ends_of_leaving (hrun : s.exited = none) {since : ℕ} (hst : s.main = .leaving since) : Ends cfg s := by
  refine .of_step (l := .leave) (step_main_eq hrun (by rw [stepMain, hst])) ⟨trivial, nofun⟩ ?_
  refine .of_step (l := .exit) (step_main_eq hrun rfl) ⟨trivial, nofun⟩ ?_
  exact ⟨_, .refl, nofun⟩

/-- A sleep is over when its time has come. -/
theorem Ends.wake (hrun : s.exited = none) {since wake : ℕ} (hst : s.main = .sleeping since wake)
    (h : Ends cfg { s with now := max s.now wake, main := .looking since }) : Ends cfg s := by
  rcases le_total s.now wake with hle | hle
  · have hsum : s.now + (wake - s.now) = wake := Nat.add_sub_cancel' hle
    rw [max_eq_right hle] at h
    refine .of_step (l := .time (wake - s.now)) (step_time hrun _) ⟨?_, nofun⟩ ?_
    · rw [timely, hst]
      exact hsum.le
    rw [hsum]
    refine .of_step (l := .wake) (step_main_eq hrun ?_) ⟨trivial, nofun⟩ h
    simp only [stepMain, hst]
    exact if_pos le_rfl
  · rw [max_eq_left hle] at h
    refine .of_step (l := .wake) (step_main_eq hrun ?_) ⟨trivial, nofun⟩ h
    simp only [stepMain, hst]
    exact if_pos hle

/-- The drain looks again until nothing is in flight or its deadline has passed. -/
theorem ends_of_looking {since : ℕ} (n : ℕ) : ∀ s : State, s.exited = none → s.main = .looking since →
    cfg.deadline since - s.now ≤ n → Ends cfg s := by
  induction n using Nat.strong_induction_on with
  | _ n ih =>
    intro s hrun hst hle
    by_cases hsome : 0 < s.inflightTotal ∧ s.now < cfg.deadline since
    · have hpoll : 0 < DRAIN_POLL := by decide
      refine .of_step (l := .look) (step_main_eq hrun (by simp only [stepMain, hst, if_pos hsome]; rfl))
        ⟨trivial, nofun⟩ ?_
      refine Ends.wake hrun rfl (ih (cfg.deadline since - (s.now + DRAIN_POLL)) (by omega) _ hrun rfl ?_)
      exact Nat.sub_le_sub_left (le_max_right _ _) _
    · refine .of_step (l := .look) (step_main_eq hrun (by simp only [stepMain, hst, if_neg hsome]; rfl))
        ⟨trivial, nofun⟩ ?_
      exact ends_of_leaving hrun rfl

theorem ends_of_stopped (hrun : s.exited = none) (hmain : s.main = .fetching) (hfetch : s.fetch = .stopped) :
    Ends cfg s := by
  by_cases hrange : cfg.deadline s.now ≤ INSTANT_MAX
  · have hs : stepMain cfg s .stop = some { s with main := .looking s.now } := by
      simp only [stepMain, hmain, hfetch, if_pos hrange]
    exact .of_step (step_main_eq hrun hs) ⟨trivial, nofun⟩ (ends_of_looking _ _ hrun rfl le_rfl)
  · have hs : stepMain cfg s .stop = some { s with exited := some ⟨PANIC_EXIT_CODE, s.now⟩ } := by
      simp only [stepMain, hmain, hfetch, if_neg hrange]
    exact .of_step (step_main_eq hrun hs) ⟨trivial, nofun⟩ ⟨_, .refl, nofun⟩

theorem ends_of_top (hrun : s.exited = none) (hmain : s.main = .fetching) (hshutdown : s.shutdown = true)
    (hfetch : s.fetch = .top) : Ends cfg s := by
  refine .of_step (l := .fetchCheck) (step_fetch_eq hrun (by rw [stepFetch, hfetch])) ⟨trivial, nofun⟩ ?_
  exact ends_of_stopped hrun hmain (if_pos hshutdown)

/-- `fetch_loop` spawns what it has read. -/
theorem ends_of_dispatching (rest : ℕ) : ∀ s : State, s.exited = none → s.main = .fetching →
    s.shutdown = true → s.fetch = .dispatching rest → Ends cfg s := by
  induction rest with
  | zero =>
    intro s hrun hmain hshutdown hfetch
    refine .of_step (l := .fetchNext) (step_fetch_eq hrun (by rw [stepFetch, hfetch]; rfl)) ⟨trivial, nofun⟩ ?_
    exact ends_of_top hrun hmain hshutdown rfl
  | succ rest ih =>
    intro s hrun hmain hshutdown hfetch
    refine .of_step (l := .fetchCount) (step_fetch_eq hrun (by rw [stepFetch, hfetch])) ⟨trivial, nofun⟩ ?_
    refine .of_step (l := .fetchSpawn) (step_fetch_eq hrun rfl) ⟨trivial, nofun⟩ ?_
    exact ih _ hrun hmain hshutdown rfl

/-- **A drain ends** by steps of the worker's own. -/
theorem ends_of_shutdown (hrun : s.exited = none) (hshutdown : s.shutdown = true) : Ends cfg s := by
  cases hmain : s.main with
  | looking since => exact ends_of_looking _ s hrun hmain le_rfl
  | leaving since => exact ends_of_leaving hrun hmain
  | decided since left =>
    refine .of_step (l := .exit) (step_main_eq hrun (by rw [stepMain, hmain])) ⟨trivial, nofun⟩ ?_
    exact ⟨_, .refl, nofun⟩
  | sleeping since wake => exact Ends.wake hrun hmain (ends_of_looking _ _ hrun rfl le_rfl)
  | fetching =>
    cases hfetch : s.fetch with
    | top => exact ends_of_top hrun hmain hshutdown hfetch
    | passed =>
      refine .of_step (l := .fetchGate 0 1) (step_fetch_eq hrun (by rw [stepFetch, hfetch])) ⟨trivial, nofun⟩ ?_
      exact ends_of_top hrun hmain hshutdown (if_pos (.inr Nat.one_pos))
    | reading room =>
      refine .of_step (l := .fetchFail) (step_fetch_eq hrun (by rw [stepFetch, hfetch])) ⟨trivial, nofun⟩ ?_
      exact ends_of_top hrun hmain hshutdown rfl
    | dispatching rest => exact ends_of_dispatching rest s hrun hmain hshutdown hfetch
    | spawning rest =>
      refine .of_step (l := .fetchSpawn) (step_fetch_eq hrun (by rw [stepFetch, hfetch])) ⟨trivial, nofun⟩ ?_
      exact ends_of_dispatching rest _ hrun hmain hshutdown rfl
    | stopped => exact ends_of_stopped hrun hmain hfetch

/-- The signal task receives what was raised, and sends the shutdown. -/
theorem ends_of_raised (h : DrainOk cfg s) (hrun : s.exited = none) (hraised : 0 < s.raised) :
    Ends cfg s := by
  have hshutdown := h.signals.shutdown
  cases hst : s.signals with
  | waiting =>
    have hkept := h.signals.kept hraised (by rw [hst]; rfl)
    obtain ⟨int, hint⟩ : ∃ int : Bool, (if int then s.int else s.term) = true := by
      rcases Bool.or_eq_true_iff.1 hkept with hterm | hint
      · exact ⟨false, hterm⟩
      · exact ⟨true, hint⟩
    have hs : stepSignals s (.receive int) =
        some { s with term := s.term && int, int := s.int && !int, signals := .received } := by
      simp only [stepSignals, if_pos hint, hst]
    refine .of_step (step_signals_eq hrun hs) ⟨trivial, nofun⟩ ?_
    exact .of_step (l := .send) (step_signals_eq hrun rfl) ⟨trivial, nofun⟩ (ends_of_shutdown hrun rfl)
  | received =>
    refine .of_step (l := .send) (step_signals_eq hrun (by rw [stepSignals, hst])) ⟨trivial, nofun⟩ ?_
    exact ends_of_shutdown hrun rfl
  | sent | draining first | forcing first second =>
    rw [hst] at hshutdown
    exact ends_of_shutdown hrun hshutdown

end Progress

/-- **The drain is sound.** In every run:
* the process exits by force only after two signals, the second received at least `SECOND_SIGNAL_MIN_GAP`
  after the first; by a panic only if the deadline is out of range; with code 0 only when every dispatch of an
  entry that was read, and every other one that was spawned by then, had ended; with the code of a drain
  timeout only while some are in flight, and past the deadline unless `recovery_loop` counted one between the
  last look of `run_worker`, which found none, and its reading of those left;
* nothing stops without a signal, and once the shutdown is sent the loops take one read and one page at most;
* after a signal the worker can always end by its own steps, and whenever time does not pass `run_worker` by,
  it ends by the deadline and one `DRAIN_POLL`, if it is not forced before and does not panic. -/
theorem drain_sound (cfg : DrainCfg) (s : State) (h : (system cfg).Reachable System.anyStep s) :
    (∀ e, s.exited = some e →
      (e.code = 130 ∧ 2 ≤ s.raised ∧ ∃ first second, s.signals = .forcing first second ∧
          first + SECOND_SIGNAL_MIN_GAP ≤ second ∧ second ≤ e.at_) ∨
        (e.code = PANIC_EXIT_CODE ∧ s.shutdown = true ∧ INSTANT_MAX < cfg.deadline e.at_) ∨
        ∃ since left, s.main = .decided since left ∧ s.shutdown = true ∧
          ((e.code = 0 ∧ left = 0 ∧ ∀ i d, s.dispatched[i]? = some d → i < s.seen ∨ d.origin = .fetch →
              d.status = .gone) ∨
            (e.code = DRAIN_TIMEOUT_EXIT_CODE ∧ 0 < left ∧
              (cfg.deadline since ≤ e.at_ ∨ 0 < s.raced)))) ∧
    (s.shutdown = true → 1 ≤ s.raised) ∧
    s.lateFetched ≤ cfg.maxRead ∧ (s.raced ≤ s.lateRecovered ∧ s.lateRecovered ≤ RECOVERY_SCAN_BATCH) ∧
    (1 ≤ s.raised → s.exited = none → ∃ t, (system cfg).Reach own s t ∧ t.exited ≠ none) ∧
    ((system cfg).Reachable timely s → ∀ e, s.exited = some e → e.code = 130 ∨
      (e.code = PANIC_EXIT_CODE ∧ INSTANT_MAX < cfg.deadline e.at_) ∨
      ∃ since left, s.main = .decided since left ∧ e.at_ ≤ cfg.deadline since + DRAIN_POLL) := by
  have hok := DrainOk.of_reachable h
  have hsignals := hok.signals
  refine ⟨fun e he => ?_, fun hshutdown => ?_, (Nat.le_add_right _ _).trans hok.fetched,
    ⟨hok.raced, (Nat.le_add_right _ _).trans hok.recovered⟩,
    fun hraised hrun => ends_of_raised hok hrun hraised, fun hprompt e he => ?_⟩
  · obtain ⟨hat, ⟨hcode, first, second, hforcing⟩ | ⟨hcode, hfetch, hrange⟩ | ⟨since, left, hdecided, hcode⟩⟩ :=
      hok.exited e he
    · have hraised := hsignals.counted
      rw [hforcing, Signals.taken] at hraised
      obtain ⟨hgap, hle⟩ := hsignals.gap first second hforcing
      exact .inl ⟨hcode, by omega, first, second, hforcing, hgap, hle.trans hat.ge⟩
    · exact .inr (.inl ⟨hcode, hok.stopped hfetch, hrange⟩)
    · have hmain := hok.main
      rw [hdecided] at hmain
      obtain ⟨hstopped, hdec⟩ := hmain
      refine .inr (.inr ⟨since, left, hdecided, hok.stopped hstopped, ?_⟩)
      rcases hdec.nonneg.eq_or_lt with hzero | hpos
      · rw [if_neg hzero.not_lt] at hcode
        refine .inl ⟨hcode, hzero.symm, fun i d hd hi => hdec.gone hzero.ge i d ?_ hd⟩
        exact hi.elim id (hdec.fetched i d hd)
      · rw [if_pos hpos] at hcode
        rw [hat]
        exact .inr ⟨hcode, hpos, hdec.late hpos⟩
  · have hraised := hsignals.counted
    have htold := hsignals.shutdown
    rw [hshutdown] at htold
    have htaken := Signals.one_le_taken htold.symm
    omega
  · obtain ⟨hat, ⟨hcode, -⟩ | ⟨hcode, -, hrange⟩ | ⟨since, left, hdecided, -⟩⟩ := hok.exited e he
    · exact .inl hcode
    · exact .inr (.inl ⟨hcode, hrange⟩)
    · have hlate := PromptOk.of_reachable hprompt
      rw [hdecided] at hlate
      rw [hat]
      exact .inr (.inr ⟨since, left, hdecided, hlate⟩)

/-- SIGTERM arrives while a read is being dispatched, and SIGINT a tenth of a second later. -/
def oneRead : List Label :=
  [.fetchCheck, .fetchGate 8 0, .reply 2, .fetchCount, .fetchSpawn, .raise false, .receive false, .send, .begin,
    .fetchCount, .fetchSpawn, .finish 0, .drop 0, .fetchNext, .fetchCheck, .stop, .look, .time 100000000,
    .raise true, .receive true, .finish 1, .drop 1, .wake, .look, .leave, .exit]

/-- One queue, and a drain of thirty seconds. -/
def oneQueue : DrainCfg where
  queues := ["default"]
  ioConcurrency := 8
  batch := 64
  drainTimeout := 30

/-- The state after `oneRead`. -/
def drained : State := ((system oneQueue).run { now := 0 } oneRead).getD { now := 0 }

theorem drain_sound_drained :
    drained.exited.map Exit.code = some 0 ∧ drained.raised = 2 ∧ drained.dispatched.length = 2 ∧
      drained.lateFetched = 1 ∧ drained.lateFetched ≤ oneQueue.maxRead := by
  have hreach : (system oneQueue).Reachable System.anyStep drained :=
    System.reachable_getD ⟨0, rfl⟩ (fun _ _ _ => trivial) (by decide +kernel)
  obtain ⟨-, -, hfetched, -⟩ := drain_sound oneQueue drained hreach
  exact ⟨by decide +kernel, by decide +kernel, by decide +kernel, by decide +kernel, hfetched⟩

end Cauli.Drain
