import Mathlib.Algebra.Order.Floor.Ring
import Mathlib.Data.Rat.Floor
import Mathlib.Tactic.Linarith
import Cauli.Lib.LeaseKey
import Cauli.Lib.Transition

/-!
# The lease of the beat (`py/cauli/beat.py`)

One replica ticks at a time, as long as nothing is too slow: it holds a lease, a key of Redis with an
expiry time, and asks for a new term before a third of the old one is over. A replica may stall between
any two steps, its requests and the answers to them may be lost, and a request that its caller has given
up may still be run by Redis, at any time.

* `check`, `reply`, `failed`: `Beat._hold_leadership` and the handlers in `Beat.run`, around the request;
* `Request`: what Redis is asked for, also after the caller is gone;
* `system`: any number of replicas, each with its own settings and its own clock;
* `LeaseOk`: the key shows the name of a leader until the end of its term;
* `one_leader_in_term`: at most one replica is within the term of its last request.

A replica is known by its number, which stands for its instance id. Time is in milliseconds, Redis reads
it in whole ones; the monotonic clock of a replica is in seconds. `main --once` is left out.
-/

namespace Cauli.Lease

open ExpiringKeys LeaseKey Transition

/-- `LOCK_KEY`. -/
def LOCK_KEY : String := "cauli:beat:lock"

/-- The settings of a replica: `int(lock_ttl * 1000)` and `lock_ttl / 3`. -/
structure LeaseCfg where
  useLock : Bool := true
  ttlMs : ℕ
  refreshInterval : ℚ

/-- Where a replica is in `Beat.run`. -/
inductive Phase
  /-- Between two turns of the loop. -/
  | waiting
  /-- In `_hold_leadership`, entered at the given time, with a request under way. -/
  | asked (began : ℚ)
  /-- Redis has run the request at the time `ran`, and its answer is on its way. -/
  | told (began ran : ℚ) (ok : Bool)
  /-- In `sync_code_entries`. -/
  | syncing
  /-- In `tick`. -/
  | ticking
  | stopped
  deriving DecidableEq

/-- A replica. The last two fields are records: when the last request that it knows was granted began
and was run. -/
structure Replica where
  isLeader : Bool
  nextRefresh : ℚ := 0
  reconciled : Bool := false
  phase : Phase := .waiting
  began : ℚ := 0
  ran : ℚ := 0

/-- `Beat.__init__`. -/
def Replica.init (cfg : LeaseCfg) : Replica where
  isLeader := !cfg.useLock

/-- `_hold_leadership` has returned `True`. -/
def Replica.enter (R : Replica) : Replica :=
  { R with phase := if R.reconciled then .ticking else .syncing }

/-- `_hold_leadership` up to its request, if it makes one. -/
def check (cfg : LeaseCfg) (monotonic now : ℚ) (R : Replica) : Replica :=
  if !cfg.useLock then R.enter
  else if R.isLeader ∧ monotonic < R.nextRefresh then R.enter
  else { R with phase := .asked now }

/-- The rest of it. `monotonic` is what the clock read at the beginning. -/
def reply (cfg : LeaseCfg) (monotonic began ran : ℚ) (ok : Bool) (R : Replica) : Replica :=
  if ok then
    Replica.enter
      { R with
        isLeader := true
        nextRefresh := monotonic + cfg.refreshInterval
        began := began
        ran := ran }
  else if R.isLeader then { R with isLeader := false, reconciled := false, phase := .waiting }
  else { R with phase := .waiting }

/-- A `RedisError` in a turn of the loop: no step down, but a refresh before the next tick. -/
def failed (R : Replica) : Replica := { R with nextRefresh := 0, phase := .waiting }

/-- A request on the key, by the replica that makes it. -/
inductive Request
  | acquire (r : ℕ)
  | refresh (r : ℕ)
  | release (r : ℕ)
  deriving DecidableEq

/-- What Redis does with a request; `none` is an error reply. -/
def Request.run (cfg : ℕ → LeaseCfg) (now : ℕ) (m : Store String ℕ) :
    Request → Option (Store String ℕ × Bool)
  | .acquire r => LeaseKey.acquire now m LOCK_KEY r (cfg r).ttlMs
  | .refresh r => LeaseKey.refresh now m LOCK_KEY r (cfg r).ttlMs
  | .release r => some (LeaseKey.release now m LOCK_KEY r, true)

/-- What a replica in `_hold_leadership` asks for. -/
def Replica.request (r : ℕ) (R : Replica) : Request := if R.isLeader then .refresh r else .acquire r

/-- A request that Redis has not run. -/
def Replica.outstanding (r : ℕ) (R : Replica) : List Request :=
  match R.phase with
  | .asked _ => [R.request r]
  | _ => []

/-- Redis and the replicas; `strays` are the requests whose callers do not wait for them any more. -/
structure State where
  now : ℚ
  store : Store String ℕ
  replicas : ℕ → Replica
  strays : List Request := []

/-- The time Redis reads. -/
def State.server (s : State) : ℕ := ⌊s.now⌋₊

/-- Replica `r` goes on as `R`. -/
def State.put (s : State) (r : ℕ) (R : Replica) : State :=
  { s with replicas := Function.update s.replicas r R }

/-- Replica `r` goes on as `R` without an answer to its request, and makes others that it does not wait
for. -/
def State.leave (s : State) (r : ℕ) (R : Replica) (more : List Request) : State :=
  { s.put r R with strays := s.strays ++ (s.replicas r).outstanding r ++ more }

/-- The steps. -/
inductive Label
  | time (d : ℚ)
  | check (r : ℕ)
  /-- Redis runs the request of a replica that waits for the answer. -/
  | redis (r : ℕ)
  | reply (r : ℕ)
  /-- The answer does not arrive, and the request may or may not have been run. -/
  | lose (r : ℕ)
  /-- Redis runs a request whose caller is gone. -/
  | late (i : ℕ)
  | synced (r : ℕ)
  | ticked (r : ℕ)
  /-- A `RedisError` out of `sync_code_entries` or `tick`. -/
  | raised (r : ℕ)
  /-- The loop ends, and a leader sends its `release_lock`. -/
  | stop (r : ℕ)
  | crash (r : ℕ)

variable (cfg : ℕ → LeaseCfg) (clock : ℕ → ℚ → ℚ)

/-- One step; what a replica reads off its own clock at a time is `clock`. -/
def step (s : State) : Label → Option State
  | .time d => if 0 ≤ d then some { s with now := s.now + d } else none
  | .check r =>
    match (s.replicas r).phase with
    | .waiting => some (s.put r (check (cfg r) (clock r s.now) s.now (s.replicas r)))
    | _ => none
  | .redis r =>
    match (s.replicas r).phase with
    | .asked began =>
      (((s.replicas r).request r).run cfg s.server s.store).map fun a =>
        { s.put r { s.replicas r with phase := .told began s.now a.2 } with store := a.1 }
    | _ => none
  | .reply r =>
    match (s.replicas r).phase with
    | .told began ran ok =>
      some (s.put r (reply (cfg r) (clock r began) began ran ok (s.replicas r)))
    | _ => none
  | .lose r =>
    match (s.replicas r).phase with
    | .asked _ | .told .. => some (s.leave r (failed (s.replicas r)) [])
    | _ => none
  | .late i =>
    (s.strays[i]?).bind fun q => (q.run cfg s.server s.store).map fun a =>
      { s with store := a.1, strays := s.strays.eraseIdx i }
  | .synced r =>
    match (s.replicas r).phase with
    | .syncing => some (s.put r { s.replicas r with reconciled := true, phase := .ticking })
    | _ => none
  | .ticked r =>
    match (s.replicas r).phase with
    | .ticking => some (s.put r { s.replicas r with phase := .waiting })
    | _ => none
  | .raised r =>
    match (s.replicas r).phase with
    | .syncing | .ticking => some (s.put r (failed (s.replicas r)))
    | _ => none
  | .stop r =>
    match (s.replicas r).phase with
    | .stopped => none
    | _ => some (s.leave r { s.replicas r with phase := .stopped }
        (if (cfg r).useLock ∧ (s.replicas r).isLeader then [.release r] else []))
  | .crash r =>
    match (s.replicas r).phase with
    | .stopped => none
    | _ => some (s.leave r { s.replicas r with phase := .stopped } [])

/-- Any number of replicas, which start with whatever the key holds. -/
def system : System State Label where
  init s := 0 ≤ s.now ∧ s.strays = [] ∧ ∀ r, s.replicas r = Replica.init (cfg r)
  step := step cfg clock

/-! ### A term -/

/-- A request of replica `r` that was granted at `t` still counts: the key shows its name to the end of
the term. -/
def Term (now : ℚ) (m : Store String ℕ) (r : ℕ) (t : ℚ) : Prop :=
  ⌊now⌋₊ ≤ ⌊t⌋₊ + (cfg r).ttlMs → HeldUntil ⌊now⌋₊ m LOCK_KEY r (⌊t⌋₊ + (cfg r).ttlMs)

variable {cfg clock} {now now' t : ℚ} {m m' : Store String ℕ} {r : ℕ} {q : Request} {ok : Bool}

theorem Term.wait (h : Term cfg now m r t) (hle : now ≤ now') : Term cfg now' m r t := by
  intro hterm
  have hfloor : ⌊now⌋₊ ≤ ⌊now'⌋₊ := Nat.floor_mono hle
  exact (h (hfloor.trans hterm)).wait hterm

/-- No request ends a term, except for the release of the replica itself. -/
theorem Term.run (h : Term cfg now m r t) (ht : t ≤ now) (hq : q ≠ .release r)
    (hrun : q.run cfg ⌊now⌋₊ m = some (m', ok)) : Term cfg now m' r t := by
  intro hterm
  have hheld := h hterm
  cases q with
  | acquire r' =>
    obtain ⟨rfl, -⟩ := hheld.acquire hrun
    exact hheld
  | refresh r' =>
    refine hheld.refresh (fun hr => ?_) hrun
    rw [hr]
    exact Nat.add_le_add_right (Nat.floor_mono ht) _
  | release r' =>
    cases hrun
    exact hheld.release fun hr => hq (by rw [hr])

/-- A request that is granted begins a term. -/
theorem term_of_run (R : Replica) (hrun : (R.request r).run cfg ⌊now⌋₊ m = some (m', true)) :
    Term cfg now m' r now := by
  intro _
  rw [Replica.request] at hrun
  split_ifs at hrun
  · exact heldUntil_of_refresh hrun
  · exact heldUntil_of_acquire hrun

/-! ### The invariant -/

variable (cfg clock)

/-- **What holds of a replica.** -/
structure ReplicaOk (now : ℚ) (m : Store String ℕ) (r : ℕ) (R : Replica) : Prop where
  term : (cfg r).useLock = true → R.isLeader = true → R.phase ≠ .stopped → Term cfg now m r R.ran
  times : (cfg r).useLock = true → R.isLeader = true → 0 ≤ R.began ∧ R.began ≤ R.ran ∧ R.ran ≤ now
  refresh : (cfg r).useLock = true → R.isLeader = true →
    R.nextRefresh ≤ 0 ∨ R.nextRefresh = clock r R.began + (cfg r).refreshInterval
  asked : ∀ began, R.phase = .asked began → 0 ≤ began ∧ began ≤ now
  told : ∀ began ran ok, R.phase = .told began ran ok →
    0 ≤ began ∧ began ≤ ran ∧ ran ≤ now ∧ (ok = true → Term cfg now m r ran)
  synced : R.phase = .ticking → R.reconciled = true

/-- **What holds of all of them.** -/
structure LeaseOk (s : State) : Prop where
  nonneg : 0 ≤ s.now
  replicas : ∀ r, ReplicaOk cfg clock s.now s.store r (s.replicas r)
  released : ∀ r, .release r ∈ s.strays → (s.replicas r).phase = .stopped

variable {cfg clock} {R R' : Replica} {s s' : State}

theorem ReplicaOk.init : ReplicaOk cfg clock now m r (Replica.init (cfg r)) := by
  have hleader : (cfg r).useLock = true → (Replica.init (cfg r)).isLeader = true → False := by
    intro hlock h
    simp [Replica.init, hlock] at h
  refine ⟨fun hlock h => (hleader hlock h).elim, fun hlock h => (hleader hlock h).elim,
    fun hlock h => (hleader hlock h).elim, ?_, ?_, ?_⟩ <;> simp [Replica.init]

theorem ReplicaOk.wait (h : ReplicaOk cfg clock now m r R) (hle : now ≤ now') :
    ReplicaOk cfg clock now' m r R where
  term hlock hleader hactive := (h.term hlock hleader hactive).wait hle
  times hlock hleader :=
    have ⟨hzero, hbegan, hran⟩ := h.times hlock hleader
    ⟨hzero, hbegan, hran.trans hle⟩
  refresh := h.refresh
  asked began hphase := ⟨(h.asked began hphase).1, (h.asked began hphase).2.trans hle⟩
  told began ran ok hphase :=
    have ⟨hzero, hbegan, hran, hterm⟩ := h.told began ran ok hphase
    ⟨hzero, hbegan, hran.trans hle, fun hok => (hterm hok).wait hle⟩
  synced := h.synced

/-- A request that Redis runs, of any replica. -/
theorem ReplicaOk.run (h : ReplicaOk cfg clock now m r R)
    (hq : q = .release r → R.phase = .stopped)
    (hrun : q.run cfg ⌊now⌋₊ m = some (m', ok)) : ReplicaOk cfg clock now m' r R where
  term hlock hleader hactive :=
    (h.term hlock hleader hactive).run (h.times hlock hleader).2.2 (fun hrel => hactive (hq hrel)) hrun
  times := h.times
  refresh := h.refresh
  asked := h.asked
  told began ran ok hphase := by
    obtain ⟨hzero, hbegan, hran, hterm⟩ := h.told began ran ok hphase
    refine ⟨hzero, hbegan, hran, fun hok => (hterm hok).run hran (fun hrel => ?_) hrun⟩
    rw [hq hrel] at hphase
    cases hphase
  synced := h.synced

/-- A move that leaves the lease of the replica alone. -/
theorem ReplicaOk.move (h : ReplicaOk cfg clock now m r R) (hactive : R.phase ≠ .stopped)
    (hleader : R'.isLeader = R.isLeader) (hbegan : R'.began = R.began) (hran : R'.ran = R.ran)
    (hnext : R'.nextRefresh = R.nextRefresh ∨ R'.nextRefresh = 0)
    (hasked : ∀ began, R'.phase = .asked began → 0 ≤ began ∧ began ≤ now)
    (htold : ∀ began ran ok, R'.phase ≠ .told began ran ok)
    (hsynced : R'.phase = .ticking → R'.reconciled = true) : ReplicaOk cfg clock now m r R' where
  term hlock hlead _ := by
    rw [hleader] at hlead
    rw [hran]
    exact h.term hlock hlead hactive
  times hlock hlead := by
    rw [hleader] at hlead
    rw [hran, hbegan]
    exact h.times hlock hlead
  refresh hlock hlead := by
    rw [hleader] at hlead
    rw [hbegan]
    rcases hnext with heq | heq
    · rw [heq]
      exact h.refresh hlock hlead
    · exact .inl heq.le
  asked := hasked
  told began ran ok hphase := absurd hphase (htold began ran ok)
  synced := hsynced

theorem Replica.phase_enter (R : Replica) :
    R.enter.phase = .ticking ∧ R.reconciled = true ∨ R.enter.phase = .syncing := by
  unfold Replica.enter
  cases R.reconciled <;> simp

theorem ReplicaOk.enter (h : ReplicaOk cfg clock now m r R) (hactive : R.phase ≠ .stopped) :
    ReplicaOk cfg clock now m r R.enter := by
  refine h.move hactive rfl rfl rfl (.inl rfl) ?_ ?_ ?_ <;>
    rcases R.phase_enter with ⟨hphase, hrec⟩ | hphase <;> simp [hphase]
  exact hrec

theorem ReplicaOk.check (h : ReplicaOk cfg clock now m r R) (hactive : R.phase ≠ .stopped)
    (hzero : 0 ≤ now) (monotonic : ℚ) : ReplicaOk cfg clock now m r (check (cfg r) monotonic now R) := by
  unfold Lease.check
  split_ifs
  · exact h.enter hactive
  · exact h.enter hactive
  · refine h.move hactive rfl rfl rfl (.inl rfl) ?_ (by simp) (by simp)
    intro began hphase
    cases hphase
    exact ⟨hzero, le_rfl⟩

theorem ReplicaOk.failed (h : ReplicaOk cfg clock now m r R) (hactive : R.phase ≠ .stopped) :
    ReplicaOk cfg clock now m r (failed R) :=
  h.move hactive rfl rfl rfl (.inr rfl) (by simp [Lease.failed]) (by simp [Lease.failed])
    (by simp [Lease.failed])

theorem ReplicaOk.stopped (h : ReplicaOk cfg clock now m r R) (hactive : R.phase ≠ .stopped) :
    ReplicaOk cfg clock now m r { R with phase := .stopped } :=
  h.move hactive rfl rfl rfl (.inl rfl) (by simp) (by simp) (by simp)

/-- The answer to a request: a new term, or no lease at all. -/
theorem ReplicaOk.reply (h : ReplicaOk cfg clock now m r R) {began ran : ℚ}
    (hphase : R.phase = .told began ran ok) :
    ReplicaOk cfg clock now m r (reply (cfg r) (clock r began) began ran ok R) := by
  obtain ⟨hzero, hbegan, hran, hterm⟩ := h.told began ran ok hphase
  unfold Lease.reply
  split_ifs with hok hleader
  · refine ReplicaOk.enter ?_ (by simp [hphase])
    refine ⟨fun _ _ _ => hterm hok, fun _ _ => ⟨hzero, hbegan, hran⟩, fun _ _ => .inr rfl,
      h.asked, h.told, h.synced⟩
  · refine ⟨?_, ?_, ?_, ?_, ?_, ?_⟩ <;> simp
  · refine ⟨?_, ?_, ?_, ?_, ?_, ?_⟩ <;> simp [hleader]

/-- Redis has answered: a request that was granted begins a term. -/
theorem ReplicaOk.redis (h : ReplicaOk cfg clock now m r R) {began : ℚ}
    (hphase : R.phase = .asked began)
    (hrun : (R.request r).run cfg ⌊now⌋₊ m = some (m', ok)) :
    ReplicaOk cfg clock now m' r { R with phase := .told began now ok } := by
  have hactive : R.phase ≠ .stopped := by simp [hphase]
  have hrel : R.request r = .release r → R.phase = .stopped := by
    rw [Replica.request]
    split_ifs <;> simp
  have hok := h.run hrel hrun
  refine ⟨fun hlock hlead _ => hok.term hlock hlead hactive, h.times, h.refresh, by simp, ?_,
    by simp⟩
  rintro began' ran' ok' ⟨⟩
  refine ⟨(h.asked began hphase).1, (h.asked began hphase).2, le_rfl, fun htrue => ?_⟩
  rw [htrue] at hrun
  exact term_of_run R hrun

/-- One replica moves, with the requests it leaves behind. -/
theorem LeaseOk.leave (h : LeaseOk cfg clock s) (more : List Request)
    (hR : ReplicaOk cfg clock s.now s.store r R')
    (hstopped : (s.replicas r).phase = .stopped → R'.phase = .stopped)
    (hmore : ∀ r', .release r' ∈ more → r' = r ∧ R'.phase = .stopped) :
    LeaseOk cfg clock (s.leave r R' more) := by
  refine ⟨h.nonneg, ?_, ?_⟩
  · intro r'
    by_cases hr : r' = r
    · subst hr
      simpa [State.leave, State.put] using hR
    · simpa [State.leave, State.put, Function.update_of_ne hr] using h.replicas r'
  · intro r' hmem
    simp only [State.leave, State.put, List.mem_append] at hmem ⊢
    have hout : .release r' ∉ (s.replicas r).outstanding r := by
      unfold Replica.outstanding Replica.request
      split <;> simp
      split_ifs <;> simp
    rcases hmem with (hmem | hmem) | hmem
    · by_cases hr : r' = r
      · subst hr
        simpa using hstopped (h.released r' hmem)
      · simpa [Function.update_of_ne hr] using h.released r' hmem
    · exact absurd hmem hout
    · obtain ⟨rfl, hphase⟩ := hmore r' hmem
      simpa using hphase

theorem LeaseOk.put (h : LeaseOk cfg clock s) (hR : ReplicaOk cfg clock s.now s.store r R')
    (hactive : (s.replicas r).phase ≠ .stopped) : LeaseOk cfg clock (s.put r R') := by
  have hleave := h.leave [] hR (fun hphase => absurd hphase hactive) (by simp)
  refine ⟨h.nonneg, hleave.replicas, fun r' hmem => hleave.released r' ?_⟩
  simp only [State.leave, List.mem_append]
  exact .inl (.inl hmem)

/-- **Every step keeps the leases in order.** -/
theorem LeaseOk.step (h : LeaseOk cfg clock s) {l : Label} (hstep : step cfg clock s l = some s') :
    LeaseOk cfg clock s' := by
  cases l with
  | time d =>
    simp only [Lease.step] at hstep
    split_ifs at hstep with hd
    cases hstep
    exact ⟨add_nonneg h.nonneg hd, fun r => (h.replicas r).wait (by simpa using hd), h.released⟩
  | check r =>
    simp only [Lease.step] at hstep
    split at hstep
    · next hphase =>
      cases hstep
      have hactive : (s.replicas r).phase ≠ .stopped := by simp [hphase]
      exact h.put ((h.replicas r).check hactive h.nonneg _) hactive
    · cases hstep
  | redis r =>
    simp only [Lease.step] at hstep
    split at hstep
    · next began hphase =>
      obtain ⟨⟨m', ok⟩, hrun, rfl⟩ := Option.map_eq_some_iff.1 hstep
      have hactive : (s.replicas r).phase ≠ .stopped := by simp [hphase]
      have hrel : ∀ r', (s.replicas r).request r ≠ .release r' := by
        intro r'
        rw [Replica.request]
        split_ifs <;> simp
      refine ⟨h.nonneg, fun r' => ?_, fun r' hmem => ?_⟩
      · by_cases hr : r' = r
        · subst hr
          simpa [State.put] using (h.replicas r').redis hphase hrun
        · have hrun' := (h.replicas r').run (fun heq => absurd heq (hrel r')) hrun
          simpa [State.put, Function.update_of_ne hr] using hrun'
      · have hr : r' ≠ r := fun heq => hactive (heq ▸ h.released r' hmem)
        simpa [State.put, Function.update_of_ne hr] using h.released r' hmem
    · cases hstep
  | reply r =>
    simp only [Lease.step] at hstep
    split at hstep
    · next began ran ok hphase =>
      cases hstep
      exact h.put ((h.replicas r).reply hphase) (by simp [hphase])
    · cases hstep
  | lose r =>
    simp only [Lease.step] at hstep
    have hactive : (s.replicas r).phase ≠ .stopped := by
      intro hphase
      simp [hphase] at hstep
    have hleave := h.leave [] ((h.replicas r).failed hactive)
      (fun hphase => absurd hphase hactive) (by simp)
    split at hstep <;> cases hstep <;> exact hleave
  | late i =>
    obtain ⟨q, hq, hrest⟩ := Option.bind_eq_some_iff.1 hstep
    obtain ⟨⟨m', ok⟩, hrun, rfl⟩ := Option.map_eq_some_iff.1 hrest
    have hmem : q ∈ s.strays := List.mem_of_getElem? hq
    refine ⟨h.nonneg, fun r => (h.replicas r).run (fun hrel => ?_) hrun, fun r hr => ?_⟩
    · exact h.released r (hrel ▸ hmem)
    · exact h.released r (List.mem_of_mem_eraseIdx hr)
  | synced r =>
    simp only [Lease.step] at hstep
    split at hstep
    · next hphase =>
      cases hstep
      have hactive : (s.replicas r).phase ≠ .stopped := by simp [hphase]
      exact h.put ((h.replicas r).move hactive rfl rfl rfl (.inl rfl) (by simp) (by simp) (by simp))
        hactive
    · cases hstep
  | ticked r =>
    simp only [Lease.step] at hstep
    split at hstep
    · next hphase =>
      cases hstep
      have hactive : (s.replicas r).phase ≠ .stopped := by simp [hphase]
      exact h.put ((h.replicas r).move hactive rfl rfl rfl (.inl rfl) (by simp) (by simp) (by simp))
        hactive
    · cases hstep
  | raised r =>
    simp only [Lease.step] at hstep
    have hactive : (s.replicas r).phase ≠ .stopped := by
      intro hphase
      simp [hphase] at hstep
    split at hstep <;> cases hstep <;> exact h.put ((h.replicas r).failed hactive) hactive
  | stop r =>
    simp only [Lease.step] at hstep
    split at hstep
    · cases hstep
    · next hactive =>
      cases hstep
      refine h.leave _ ((h.replicas r).stopped hactive) (fun _ => rfl) fun r' hmem => ?_
      split_ifs at hmem
      · simp only [List.mem_singleton, Request.release.injEq] at hmem
        exact ⟨hmem, rfl⟩
      · cases hmem
  | crash r =>
    simp only [Lease.step] at hstep
    split at hstep
    · cases hstep
    · next hactive =>
      cases hstep
      exact h.leave _ ((h.replicas r).stopped hactive) (fun _ => rfl) (by simp)

theorem leaseOk_of_reachable {C : State → Label → Prop} (h : (system cfg clock).Reachable C s) :
    LeaseOk cfg clock s := by
  refine h.invariant ?_ fun s l s' hs _ hstep => hs.step hstep
  rintro s ⟨hzero, hstrays, hinit⟩
  refine ⟨hzero, fun r => ?_, fun r hr => ?_⟩
  · rw [hinit r]
    exact .init
  · rw [hstrays] at hr
    cases hr

/-! ### One leader -/

variable (clock) in
/-- The monotonic clocks against the clock of Redis: they may run slower by the factor `κ`. -/
structure Steady (κ : ℚ) : Prop where
  factor : 0 ≤ κ
  nonneg : ∀ r t, 0 ≤ t → 0 ≤ clock r t
  rate : ∀ r t u, 0 ≤ t → t ≤ u → u - t ≤ κ * (1000 * (clock r u - clock r t))

variable (cfg clock) in
/-- A leader within the term of its last granted request: by its own clock, the time to live has not
passed since that request began. -/
def InTerm (κ : ℚ) (s : State) (r : ℕ) : Prop :=
  (cfg r).useLock = true ∧ (s.replicas r).phase ≠ .stopped ∧ (s.replicas r).isLeader = true ∧
    κ * (1000 * (clock r s.now - clock r (s.replicas r).began)) ≤ (cfg r).ttlMs

theorem LeaseOk.held {κ : ℚ} (h : LeaseOk cfg clock s) (hclock : Steady clock κ)
    (hterm : InTerm cfg clock κ s r) : ∃ t, HeldUntil s.server s.store LOCK_KEY r t := by
  obtain ⟨hlock, hactive, hleader, hshort⟩ := hterm
  obtain ⟨hzero, hbegan, hran⟩ := (h.replicas r).times hlock hleader
  refine ⟨_, (h.replicas r).term hlock hleader hactive ?_⟩
  have hrate := hclock.rate r _ _ hzero (hbegan.trans hran)
  have hfloor := Nat.lt_floor_add_one (s.replicas r).ran
  have hlt : s.now < ((⌊(s.replicas r).ran⌋₊ + (cfg r).ttlMs + 1 : ℕ) : ℚ) := by
    push_cast
    linarith
  exact Nat.lt_succ_iff.1 ((Nat.floor_lt' (Nat.succ_ne_zero _)).2 hlt)

/-- A granted request whose answer comes before the time to live is over lets the replica in within the
term. -/
theorem inTerm_reply {κ began ran : ℚ} (hlock : (cfg r).useLock = true)
    (hphase : (s.replicas r).phase = .told began ran ok)
    (hshort : κ * (1000 * (clock r s.now - clock r began)) ≤ (cfg r).ttlMs)
    (hstep : step cfg clock s (.reply r) = some s')
    (hentered : (s'.replicas r).phase = .syncing ∨ (s'.replicas r).phase = .ticking) :
    InTerm cfg clock κ s' r := by
  simp only [step, hphase] at hstep
  cases hstep
  cases ok with
  | false =>
    simp only [State.put, Function.update_self, reply, Bool.false_eq_true, if_false] at hentered
    split_ifs at hentered <;> simp at hentered
  | true =>
    refine ⟨hlock, ?_, ?_, ?_⟩ <;> simp only [State.put, Function.update_self, reply, if_true]
    · rcases Replica.phase_enter { s.replicas r with
        isLeader := true
        nextRefresh := clock r began + (cfg r).refreshInterval
        began := began
        ran := ran } with ⟨he, -⟩ | he <;> simp [he]
    · rfl
    · exact hshort

/-- **One leader at a time.** However the replicas stall and whatever requests and answers are lost or
late, at most one replica is a leader within the term of its last request, and the key shows its name. Its
refresh is granted; it is within the term when a check lets it tick without asking, and when the answer
to a request does that has not taken the whole time to live; and it ticks only after it has reconciled. -/
theorem one_leader_in_term {κ : ℚ} (hclock : Steady clock κ)
    (h : (system cfg clock).Reachable System.anyStep s) :
    (∀ r r', InTerm cfg clock κ s r → InTerm cfg clock κ s r' → r = r') ∧
    (∀ r, InTerm cfg clock κ s r → get s.server s.store LOCK_KEY = some r) ∧
    (∀ r s', InTerm cfg clock κ s r → step cfg clock s (.redis r) = some s' →
      ∃ began, (s'.replicas r).phase = .told began s.now true) ∧
    (∀ r s', (cfg r).useLock = true → κ * (1000 * (cfg r).refreshInterval) ≤ (cfg r).ttlMs →
      step cfg clock s (.check r) = some s' →
      (s'.replicas r).phase = .syncing ∨ (s'.replicas r).phase = .ticking →
        InTerm cfg clock κ s' r) ∧
    (∀ r began ran ok s', (cfg r).useLock = true → (s.replicas r).phase = .told began ran ok →
      κ * (1000 * (clock r s.now - clock r began)) ≤ (cfg r).ttlMs →
      step cfg clock s (.reply r) = some s' →
      (s'.replicas r).phase = .syncing ∨ (s'.replicas r).phase = .ticking →
        InTerm cfg clock κ s' r) ∧
    ∀ r, (s.replicas r).phase = .ticking → (s.replicas r).reconciled = true := by
  have hok := leaseOk_of_reachable h
  refine ⟨fun r r' hr hr' => ?_, fun r hr => ?_, fun r s' hr hstep => ?_, ?_,
    fun r began ran ok s' hlock hphase hshort hstep => inTerm_reply hlock hphase hshort hstep,
    fun r => (hok.replicas r).synced⟩
  · obtain ⟨t, ht⟩ := hok.held hclock hr
    obtain ⟨t', ht'⟩ := hok.held hclock hr'
    exact ht.unique ht'
  · obtain ⟨t, ht⟩ := hok.held hclock hr
    exact ht.get
  · obtain ⟨t, ht⟩ := hok.held hclock hr
    simp only [step] at hstep
    split at hstep
    · next began hphase =>
      obtain ⟨⟨m', ok⟩, hrun, rfl⟩ := Option.map_eq_some_iff.1 hstep
      have hreq : (s.replicas r).request r = .refresh r := by rw [Replica.request, if_pos hr.2.2.1]
      rw [hreq] at hrun
      have hgranted : ok = true := ht.refresh_ok hrun
      exact ⟨began, by simp [State.put, hgranted]⟩
    · cases hstep
  · intro r s' hlock hinterval hstep hphase
    simp only [step] at hstep
    split at hstep
    · next hwaiting =>
      cases hstep
      simp only [State.put, Function.update_self, check, hlock, Bool.not_true, Bool.false_eq_true,
        ↓reduceIte] at hphase
      split_ifs at hphase with hfresh
      · obtain ⟨hleader, hbefore⟩ := hfresh
        have hnext := ((hok.replicas r).refresh hlock hleader).resolve_left
          (not_le.2 ((hclock.nonneg r s.now hok.nonneg).trans_lt hbefore))
        have hsince : clock r s.now - clock r (s.replicas r).began ≤ (cfg r).refreshInterval := by
          linarith
        have hbound : κ * (1000 * (clock r s.now - clock r (s.replicas r).began)) ≤ (cfg r).ttlMs := by
          refine le_trans ?_ hinterval
          exact mul_le_mul_of_nonneg_left (by linarith) hclock.factor
        refine ⟨hlock, ?_, ?_, ?_⟩ <;>
          simp only [State.put, Function.update_self, check, hlock, hleader, hbefore, Bool.not_true,
            Bool.false_eq_true, ↓reduceIte, and_self, ne_eq]
        · rcases (s.replicas r).phase_enter with ⟨he, -⟩ | he <;> simp [he]
        · simpa [Replica.enter] using hleader
        · simpa [Replica.enter] using hbound
      · simp at hphase
    · cases hstep

/-- The default settings, for every replica. -/
def thirtySeconds : ℕ → LeaseCfg := fun _ => { ttlMs := 30000, refreshInterval := 10 }

/-- Clocks that agree with Redis. -/
def exactClock : ℕ → ℚ → ℚ := fun _ t => t / 1000

theorem steady_exactClock : Steady exactClock 1 where
  factor := zero_le_one
  nonneg _ t ht := div_nonneg ht (by norm_num)
  rate _ t u _ _ := by
    simp only [exactClock]
    linarith

/-- Replica 0 takes the lease; the answer to its refresh is lost, it stalls, and replica 1 takes over. -/
def handover : List Label :=
  [.check 0, .redis 0, .reply 0, .synced 0, .ticked 0, .time 12000, .check 1, .redis 1, .reply 1,
    .check 0, .redis 0, .lose 0, .time 40000, .check 1, .redis 1, .reply 1, .synced 1]

/-- No replica has started. -/
def atRest : State where
  now := 0
  store := fun _ => none
  replicas := fun r => Replica.init (thirtySeconds r)

/-- Both replicas take themselves for the leader. -/
def afterHandover : State := ((system thirtySeconds exactClock).run atRest handover).getD atRest

theorem one_leader_after_handover :
    (afterHandover.replicas 0).isLeader = true ∧ (afterHandover.replicas 1).phase = .ticking ∧
      get afterHandover.server afterHandover.store LOCK_KEY = some 1 := by
  have hreach : (system thirtySeconds exactClock).Reachable System.anyStep afterHandover := by
    refine System.reachable_getD ⟨le_rfl, rfl, fun _ => rfl⟩ (fun _ _ _ => trivial) ?_
    decide +kernel
  have hterm : InTerm thirtySeconds exactClock 1 afterHandover 1 := by
    refine ⟨rfl, ?_, ?_, ?_⟩ <;> decide +kernel
  exact ⟨by decide +kernel, by decide +kernel,
    (one_leader_in_term steady_exactClock hreach).2.1 1 hterm⟩

end Cauli.Lease
