import Mathlib.Data.List.Nodup
import Mathlib.Data.List.Perm.Basic
import Mathlib.Logic.Function.Basic
import Mathlib.Order.Nat
import Mathlib.Tactic.Ring
import Mathlib.Tactic.SplitIfs
import Cauli.Lib.Transition
import Cauli.Worker.Exec

/-!
# The pending completions of the async lane (`worker/src/pyrt.rs`, `worker/src/exec.rs`)

A task of the async lane takes a token, leaves the sending half of a channel in a table under it, queues a
job and waits. The submitter thread takes jobs from the queue in batches and hands them to the shim; the
shim calls back with the token, on any of its loops. Who completes a token takes the sender out of the table
first. The task may give up in between, and then takes its entry out itself.

* `State`: the table, the queue, the submitter's batch, and the senders on their way;
* `complete`: `complete_pending` and the callback;
* `step`: the atomic steps of the tasks, the submitter thread and the shim;
* `CompletionsOk`: where the sender of a task can be;
* `Answering`: the steps that answer a task;
* `completions_sound`: every task gets the outcome of its own token, no entry is left behind, and a task that
  waits can be answered.

Tasks have numbers; the shim may call back as often as it likes with the tokens it was given. The counter of
the tokens wraps, so what is said holds of the first 2^64 - 1 submissions.
-/

namespace Cauli.Completions

open Transition

/-- `DRAIN_MAX`. -/
def DRAIN_MAX : ℕ := 128

/-- Where `run_async_task` is. -/
inductive Stage
  | starting
  /-- In `queue_submit`, with a token. -/
  | numbered
  /-- The sender is in the table, the job is not yet queued. -/
  | inserted
  | waiting
  /-- The backstop timer has fired. -/
  | elapsed
  | done (outcome : Outcome)

/-- The sender has been in the table. -/
def Stage.begun : Stage → Bool
  | .starting | .numbered => false
  | .inserted | .waiting | .elapsed | .done _ => true

/-- The receiver is there. -/
def Stage.listens : Stage → Bool
  | .inserted | .waiting => true
  | .starting | .numbered | .elapsed | .done _ => false

/-- The task has not given up its entry. -/
def Stage.mayHold : Stage → Bool
  | .inserted | .waiting | .elapsed => true
  | .starting | .numbered | .done _ => false

/-- The runtime. `nextToken` is one more than the number of tokens given; `hands` are the senders that were taken from the table and not yet used, with what they will
send, `box` is what a task's channel holds, and `accepted` are the tokens that the shim has. `log` is a
record: every completion, whether or not its token was in the table. -/
structure State where
  nextToken : ℕ := 1
  stage : ℕ → Stage := fun _ => .starting
  token : ℕ → ℕ := fun _ => 0
  pending : ℕ → Option ℕ := fun _ => none
  hands : List (ℕ × Outcome) := []
  box : ℕ → Option Outcome := fun _ => none
  jobs : List ℕ := []
  batch : List ℕ := []
  failed : List (ℕ × Outcome) := []
  argsFailed : List (ℕ × Outcome) := []
  accepted : List ℕ := []
  asyncRejected : ℕ := 0
  log : List (ℕ × Outcome) := []

/-- The tokens that the submitter thread or the shim will complete. -/
def State.travelling (s : State) : List ℕ :=
  s.jobs ++ s.batch ++ s.failed.map Prod.fst ++ s.argsFailed.map Prod.fst ++ s.accepted

/-- How many steps the submitter thread has left, at most. -/
def State.left (s : State) : ℕ :=
  3 * s.jobs.length + 2 * s.batch.length + s.failed.length + s.argsFailed.length

/-- `complete_pending`, and the callback: the sender is taken out of the table, if it is there. -/
def complete (t : ℕ) (outcome : Outcome) (s : State) : State :=
  let s := { s with log := s.log ++ [(t, outcome)] }
  match s.pending t with
  | some i => { s with pending := Function.update s.pending t none, hands := s.hands ++ [(i, outcome)] }
  | none => s

/-- Nothing else changes in a completion. -/
structure SameLists (s s' : State) : Prop where
  stage : s'.stage = s.stage
  token : s'.token = s.token
  nextToken : s'.nextToken = s.nextToken
  travelling : s'.travelling = s.travelling
  left : s'.left = s.left

theorem sameLists_complete (t : ℕ) (outcome : Outcome) (s : State) :
    SameLists s (complete t outcome s) := by
  simp only [complete]
  split <;> exact ⟨rfl, rfl, rfl, rfl, rfl⟩

theorem complete_log (t : ℕ) (outcome : Outcome) (s : State) :
    (complete t outcome s).log = s.log ++ [(t, outcome)] := by
  simp only [complete]
  split <;> rfl

/-- `fail_pending`. -/
def shimFailure (msg : String) : Outcome := fail "WorkerShimError" msg

/-- `args_failure_outcome`. -/
def argsFailureOutcome (msg : String) : Outcome :=
  .failure (ErrorJson.new "SerializationError" ("task arguments are not JSON serializable: " ++ msg)) false

/-- The outcome of a task that gives up. -/
def backstop (env : Envelope) : Outcome :=
  fail "TimeLimitExceeded"
    s!"no completion within {env.timeoutMs}ms + grace (event loop unresponsive)"

/-- The outcome of a task whose channel was closed. -/
def channelDropped : Outcome := fail "WorkerLost" "async completion channel dropped"

/-- What becomes of a job of a batch. -/
inductive Submitted
  | accepted
  | argsFailed (msg : String)
  /-- An exception of the shim; `queueFull` says that it is an `AsyncQueueFull`. -/
  | failed (msg : String) (queueFull : Bool)

/-- The steps. -/
inductive Label
  /-- `next_token.fetch_add`. -/
  | number (i : ℕ)
  | insert (i : ℕ)
  /-- The job goes to the queue, unless the submitter thread has gone. -/
  | send (i : ℕ) (ok : Bool)
  | receive (i : ℕ)
  /-- The task finds its channel closed. -/
  | closed (i : ℕ)
  | elapse (i : ℕ)
  /-- `cancel`. -/
  | cancel (i : ℕ)
  /-- A sender that was taken from the table is used. -/
  | deliver (k : ℕ)
  /-- The submitter takes a batch; without `submit_async` in the shim all of it fails. -/
  | drain (n : ℕ) (broken : Option String)
  | submitOne (r : Submitted)
  /-- After the batch its failures are reported. -/
  | report
  | callback (t : ℕ) (outcome : Outcome)

/-- Task `i` moves to another stage. -/
def State.moveTo (s : State) (i : ℕ) (stage : Stage) : State :=
  { s with stage := Function.update s.stage i stage }

@[simp] theorem State.moveTo_stage_self (s : State) (i : ℕ) (stage : Stage) :
    (s.moveTo i stage).stage i = stage :=
  Function.update_self ..

theorem State.moveTo_stage_of_ne (s : State) {i j : ℕ} (h : j ≠ i) (stage : Stage) :
    (s.moveTo i stage).stage j = s.stage j :=
  Function.update_of_ne h ..

/-- One step; `env i` is the envelope of task `i`. -/
def step (env : ℕ → Envelope) (s : State) : Label → Option State
  | .number i =>
    match s.stage i with
    | .starting =>
      some { s.moveTo i .numbered with
        token := Function.update s.token i (s.nextToken % 2 ^ 64)
        nextToken := s.nextToken + 1 }
    | _ => none
  | .insert i =>
    match s.stage i with
    | .numbered =>
      some { s.moveTo i .inserted with pending := Function.update s.pending (s.token i) (some i) }
    | _ => none
  | .send i ok =>
    match s.stage i with
    | .inserted =>
      if ok then some { s.moveTo i .waiting with jobs := s.jobs ++ [s.token i] }
      else some (complete (s.token i)
        (shimFailure "queue_submit failed: submitter thread has exited") (s.moveTo i .waiting))
    | _ => none
  | .receive i =>
    match s.stage i, s.box i with
    | .waiting, some outcome => some (s.moveTo i (.done outcome))
    | _, _ => none
  | .closed i =>
    match s.stage i, s.box i with
    | .waiting, none =>
      if s.pending (s.token i) ≠ some i ∧ i ∉ s.hands.map Prod.fst then
        some (s.moveTo i (.done channelDropped))
      else none
    | _, _ => none
  | .elapse i =>
    match s.stage i, s.box i with
    | .waiting, none => some (s.moveTo i .elapsed)
    | _, _ => none
  | .cancel i =>
    match s.stage i with
    | .elapsed =>
      some { s.moveTo i (.done (backstop (env i))) with
        pending := Function.update s.pending (s.token i) none }
    | _ => none
  | .deliver k =>
    (s.hands[k]?).map fun p =>
      { s with
        hands := s.hands.eraseIdx k
        box := if (s.stage p.1).listens then Function.update s.box p.1 (some p.2) else s.box }
  | .drain n broken =>
    if s.batch = [] ∧ s.failed = [] ∧ s.argsFailed = [] ∧ 0 < n ∧ n ≤ DRAIN_MAX ∧ n ≤ s.jobs.length then
      match broken with
      | none => some { s with jobs := s.jobs.drop n, batch := s.jobs.take n }
      | some msg =>
        some { s with
          jobs := s.jobs.drop n
          failed := (s.jobs.take n).map fun t => (t, shimFailure ("submit_async failed: " ++ msg)) }
    else none
  | .submitOne r =>
    match s.batch with
    | [] => none
    | t :: batch =>
      match r with
      | .accepted => some { s with batch := batch, accepted := s.accepted ++ [t] }
      | .argsFailed msg =>
        some { s with batch := batch, argsFailed := s.argsFailed ++ [(t, argsFailureOutcome msg)] }
      | .failed msg queueFull =>
        some { s with
          batch := batch
          failed := s.failed ++ [(t, shimFailure ("submit_async failed: " ++ msg))]
          asyncRejected := s.asyncRejected + queueFull.toNat }
  | .report =>
    match s.batch, s.failed, s.argsFailed with
    | [], (t, outcome) :: failed, _ => some (complete t outcome { s with failed := failed })
    | [], [], (t, outcome) :: argsFailed => some (complete t outcome { s with argsFailed := argsFailed })
    | _, _, _ => none
  | .callback t outcome => if t ∈ s.accepted then some (complete t outcome s) else none

/-- The runs of the async lane. -/
def system (env : ℕ → Envelope) : System State Label where
  init s := s = {}
  step := step env

/-! ### The invariant -/

/-- The first completion of a token. -/
def first (log : List (ℕ × Outcome)) (t : ℕ) : Option Outcome :=
  (log.find? (·.1 == t)).map Prod.snd

theorem first_append {log : List (ℕ × Outcome)} {t t' : ℕ} {outcome : Outcome} :
    first (log ++ [(t', outcome)]) t
      = (first log t).or (if t' = t then some outcome else none) := by
  rw [first, List.find?_append, first]
  by_cases ht : t' = t
  · cases hlog : log.find? (·.1 == t) <;> simp [ht]
  · cases hlog : log.find? (·.1 == t) <;> simp [ht]

theorem first_append_of_some {log : List (ℕ × Outcome)} {t t' : ℕ} {outcome o : Outcome}
    (h : first log t = some o) : first (log ++ [(t', outcome)]) t = some o := by
  rw [first_append, h, Option.some_or]

/-- **Where the sender of a task can be**: in the table, on its way, or used. -/
structure SendersOk (env : ℕ → Envelope) (s : State) : Prop where
  below : ∀ i, s.stage i ≠ .starting → s.token i < s.nextToken
  distinct : ∀ i j, s.stage i ≠ .starting → s.stage j ≠ .starting → s.token i = s.token j → i = j
  known : ∀ t, t ∈ s.travelling ∨ first s.log t ≠ none → ∃ i, s.token i = t ∧ (s.stage i).begun
  entry : ∀ t i, s.pending t = some i →
    s.token i = t ∧ (s.stage i).mayHold ∧ first s.log t = none
  hand : ∀ p ∈ s.hands, (s.stage p.1).begun ∧ s.pending (s.token p.1) = none ∧ s.box p.1 = none ∧
    first s.log (s.token p.1) = some p.2
  once : (s.hands.map Prod.fst).Nodup
  full : ∀ i outcome, s.box i = some outcome → (s.stage i).begun ∧ s.pending (s.token i) = none ∧
    first s.log (s.token i) = some outcome ∧ i ∉ s.hands.map Prod.fst
  held : ∀ i, (s.stage i).listens → s.pending (s.token i) = some i ∨ i ∈ s.hands.map Prod.fst ∨
    s.box i ≠ none
  answered : ∀ i outcome, s.stage i = .done outcome → s.pending (s.token i) = none ∧
    (first s.log (s.token i) = some outcome ∨ outcome = backstop (env i))

/-- **What holds of the lane**: also, somebody is there to complete the token of a task that waits. -/
structure CompletionsOk (env : ℕ → Envelope) (s : State) : Prop extends SendersOk env s where
  travels : ∀ i, s.stage i = .waiting → s.token i ∈ s.travelling ∨ first s.log (s.token i) ≠ none

section Invariant

variable {env : ℕ → Envelope} {s s' : State} {i t : ℕ} {outcome : Outcome}

theorem Stage.begun_of_mayHold {stage : Stage} (h : stage.mayHold = true) : stage.begun = true := by
  cases stage <;> simp_all [Stage.mayHold, Stage.begun]

theorem Stage.begun_of_listens {stage : Stage} (h : stage.listens = true) : stage.begun = true := by
  cases stage <;> simp_all [Stage.listens, Stage.begun]

theorem Stage.ne_starting_of_begun {stage : Stage} (h : stage.begun = true) : stage ≠ .starting := by
  rintro rfl
  cases h

theorem SendersOk.unique (h : SendersOk env s) {j : ℕ} (hi : (s.stage i).begun) (hj : (s.stage j).begun)
    (heq : s.token i = s.token j) : i = j :=
  h.distinct i j (Stage.ne_starting_of_begun hi) (Stage.ne_starting_of_begun hj) heq

/-- Nobody has completed a token yet whose task has not begun. -/
theorem SendersOk.first_eq_none (h : SendersOk env s) (hi : s.stage i = .numbered) :
    first s.log (s.token i) = none := by
  by_contra hne
  obtain ⟨j, htoken, hj⟩ := h.known _ (.inr hne)
  have hij : j = i := h.distinct j i (Stage.ne_starting_of_begun hj) (by simp [hi]) htoken
  rw [hij, hi] at hj
  cases hj

/-- A sender in the table is neither on its way nor used. -/
theorem SendersOk.unused (h : SendersOk env s) (hpending : s.pending t = some i) :
    i ∉ s.hands.map Prod.fst ∧ s.box i = none := by
  obtain ⟨htoken, -⟩ := h.entry t i hpending
  constructor
  · intro hmem
    obtain ⟨p, hp, hpi⟩ := List.mem_map.1 hmem
    obtain ⟨-, hgone, -, -⟩ := h.hand p hp
    rw [hpi, htoken, hpending] at hgone
    cases hgone
  · cases hbox : s.box i with
    | none => rfl
    | some o =>
      obtain ⟨-, hgone, -, -⟩ := h.full i o hbox
      rw [htoken, hpending] at hgone
      cases hgone

/-- A completion: whoever comes first takes the sender out of the table, the others change nothing. -/
theorem SendersOk.complete (h : SendersOk env s) (ht : ∃ i, s.token i = t ∧ (s.stage i).begun)
    (outcome : Outcome) : SendersOk env (complete t outcome s) := by
  have hknown : ∀ t', t' ∈ s.travelling ∨ first (s.log ++ [(t, outcome)]) t' ≠ none →
      ∃ i, s.token i = t' ∧ (s.stage i).begun := by
    rintro t' (ht' | ht')
    · exact h.known t' (.inl ht')
    · by_cases htt : t = t'
      · exact htt ▸ ht
      · rw [first_append, if_neg htt, Option.or_none] at ht'
        exact h.known t' (.inr ht')
  have hfirst : ∀ {t' o}, first s.log t' = some o → first (s.log ++ [(t, outcome)]) t' = some o :=
    fun ho => first_append_of_some ho
  have hover : ∀ i o, s.stage i = .done o → s.pending (s.token i) = none ∧
      (first (s.log ++ [(t, outcome)]) (s.token i) = some o ∨ o = backstop (env i)) :=
    fun i o hi => ⟨(h.answered i o hi).1, (h.answered i o hi).2.imp_left hfirst⟩
  cases hpending : s.pending t with
  | none =>
    have hdef : Completions.complete t outcome s = { s with log := s.log ++ [(t, outcome)] } := by
      simp only [Completions.complete, hpending]
    rw [hdef]
    refine ⟨h.below, h.distinct, hknown, fun t' i hi => ?_, fun p hp => ?_, h.once, fun i o hi => ?_,
      h.held, hover⟩
    · obtain ⟨htoken, hhold, hnone⟩ := h.entry t' i hi
      have htt : t ≠ t' := by
        rintro rfl
        rw [hpending] at hi
        cases hi
      exact ⟨htoken, hhold, by rw [first_append, hnone, if_neg htt, Option.or_none]⟩
    · obtain ⟨hbegun, hnone, hbox, hlog⟩ := h.hand p hp
      exact ⟨hbegun, hnone, hbox, hfirst hlog⟩
    · obtain ⟨hbegun, hnone, hlog, hhands⟩ := h.full i o hi
      exact ⟨hbegun, hnone, hfirst hlog, hhands⟩
  | some i =>
    obtain ⟨htoken, hhold, hnone⟩ := h.entry t i hpending
    have hbegun := Stage.begun_of_mayHold hhold
    have hdef : Completions.complete t outcome s = { s with
        log := s.log ++ [(t, outcome)]
        pending := Function.update s.pending t none
        hands := s.hands ++ [(i, outcome)] } := by
      simp only [Completions.complete, hpending]
    have hself : first (s.log ++ [(t, outcome)]) t = some outcome := by
      rw [first_append, hnone, if_pos rfl, Option.none_or]
    obtain ⟨hnot, hbox⟩ := h.unused hpending
    have hgone : ∀ {t'}, s.pending t' = none → Function.update s.pending t none t' = none := by
      intro t' ht'
      by_cases htt : t' = t
      · rw [htt, Function.update_self]
      · rw [Function.update_of_ne htt, ht']
    rw [hdef]
    refine ⟨h.below, h.distinct, hknown, fun t' j hj => ?_, fun p hp => ?_, ?_, fun j o hj => ?_,
      fun j hj => ?_, fun j o hj => ⟨hgone (hover j o hj).1, (hover j o hj).2⟩⟩
    · by_cases htt : t' = t
      · simp only [htt, Function.update_self] at hj
        cases hj
      · simp only [Function.update_of_ne htt] at hj
        obtain ⟨htoken', hhold', hnone'⟩ := h.entry t' j hj
        exact ⟨htoken', hhold', by rw [first_append, hnone', if_neg (Ne.symm htt), Option.or_none]⟩
    · rcases List.mem_append.1 hp with hp | hp
      · obtain ⟨hbegun', hnone', hbox', hlog⟩ := h.hand p hp
        exact ⟨hbegun', hgone hnone', hbox', hfirst hlog⟩
      · rw [List.mem_singleton.1 hp]
        simp only [htoken]
        exact ⟨hbegun, Function.update_self .., hbox, hself⟩
    · rw [List.map_append]
      exact List.nodup_append_comm.2 (List.nodup_cons.2 ⟨hnot, h.once⟩)
    · obtain ⟨hbegun', hnone', hlog, hhands⟩ := h.full j o hj
      refine ⟨hbegun', hgone hnone', hfirst hlog, ?_⟩
      rw [List.map_append, List.mem_append, not_or]
      refine ⟨hhands, fun hmem => ?_⟩
      rw [List.map_singleton, List.mem_singleton] at hmem
      rw [hmem, hbox] at hj
      cases hj
    · rw [List.map_append, List.mem_append]
      rcases h.held j hj with hj' | hj' | hj'
      · by_cases htt : s.token j = t
        · rw [htt, hpending] at hj'
          cases hj'
          exact .inr (.inl (.inr (List.mem_singleton.2 rfl)))
        · exact .inl ((Function.update_of_ne htt ..).trans hj')
      · exact .inr (.inl (.inl hj'))
      · exact .inr (.inr hj')

/-- A task that has begun goes on. -/
theorem SendersOk.moveTo (h : SendersOk env s) (hi : (s.stage i).begun) {stage : Stage}
    (hbegun : stage.begun) (hhold : s.pending (s.token i) = none ∨ stage.mayHold)
    (hlistens : stage.listens → (s.stage i).listens)
    (hover : ∀ o, stage = .done o → s.pending (s.token i) = none ∧
      (first s.log (s.token i) = some o ∨ o = backstop (env i))) :
    SendersOk env (s.moveTo i stage) := by
  have hbegun' : ∀ j, (s.stage j).begun → (Function.update s.stage i stage j).begun := by
    intro j hj
    by_cases hji : j = i
    · rw [hji, Function.update_self]
      exact hbegun
    · rwa [Function.update_of_ne hji]
  have hstarting : ∀ j, Function.update s.stage i stage j ≠ .starting → s.stage j ≠ .starting := by
    intro j hj
    by_cases hji : j = i
    · rw [hji]
      exact Stage.ne_starting_of_begun hi
    · rwa [Function.update_of_ne hji] at hj
  refine ⟨fun j hj => h.below j (hstarting j hj),
    fun j k hj hk => h.distinct j k (hstarting j hj) (hstarting k hk), fun t ht => ?_, fun t j hj => ?_,
    fun p hp => ⟨hbegun' _ (h.hand p hp).1, (h.hand p hp).2⟩, h.once,
    fun j o hj => ⟨hbegun' _ (h.full j o hj).1, (h.full j o hj).2⟩, fun j hj => ?_, fun j o hj => ?_⟩
  · obtain ⟨j, htoken, hj⟩ := h.known t ht
    exact ⟨j, htoken, hbegun' j hj⟩
  · obtain ⟨htoken, hhold', hnone⟩ := h.entry t j hj
    refine ⟨htoken, ?_, hnone⟩
    by_cases hji : j = i
    · subst hji
      rw [State.moveTo_stage_self]
      refine hhold.resolve_left fun hgone => ?_
      rw [htoken] at hgone
      exact absurd (hj.symm.trans hgone) (by simp)
    · rwa [State.moveTo_stage_of_ne s hji]
  · refine h.held j ?_
    by_cases hji : j = i
    · rw [hji, State.moveTo_stage_self] at hj
      exact hji ▸ hlistens hj
    · rwa [State.moveTo_stage_of_ne s hji] at hj
  · by_cases hji : j = i
    · rw [hji, State.moveTo_stage_self] at hj
      exact hji ▸ hover o hj
    · rw [State.moveTo_stage_of_ne s hji] at hj
      exact h.answered j o hj

/-- The lists of the submitter thread and of the shim hold known tokens only. -/
theorem SendersOk.relist (h : SendersOk env s) {jobs batch : List ℕ} {failed argsFailed : List (ℕ × Outcome)}
    {accepted : List ℕ} {rejected : ℕ}
    (hknown : ∀ t ∈ jobs ++ batch ++ failed.map Prod.fst ++ argsFailed.map Prod.fst ++ accepted,
      ∃ i, s.token i = t ∧ (s.stage i).begun) :
    SendersOk env { s with
      jobs := jobs, batch := batch, failed := failed, argsFailed := argsFailed, accepted := accepted,
      asyncRejected := rejected } := by
  refine ⟨h.below, h.distinct, ?_, h.entry, h.hand, h.once, h.full, h.held, h.answered⟩
  rintro t (ht | ht)
  · exact hknown t ht
  · exact h.known t (.inr ht)

/-- A new token. -/
theorem SendersOk.number (h : SendersOk env s) (hi : s.stage i = .starting) (hwrap : s.nextToken < 2 ^ 64) :
    SendersOk env { s.moveTo i .numbered with
      token := Function.update s.token i (s.nextToken % 2 ^ 64)
      nextToken := s.nextToken + 1 } := by
  rw [Nat.mod_eq_of_lt hwrap]
  -- a task that has begun is another one, so neither its stage nor its token changes
  have hne : ∀ {j}, (s.stage j).begun → j ≠ i := by
    rintro j hj rfl
    rw [hi] at hj
    cases hj
  have hstage : ∀ {j}, j ≠ i → Function.update s.stage i .numbered j = s.stage j :=
    fun hji => Function.update_of_ne hji ..
  have htoken : ∀ {j}, j ≠ i → Function.update s.token i s.nextToken j = s.token j :=
    fun hji => Function.update_of_ne hji ..
  have hfresh : ∀ j, j ≠ i → s.stage j ≠ .starting → s.token j ≠ s.nextToken :=
    fun j _ hj => Nat.ne_of_lt (h.below j hj)
  refine ⟨fun j hj => ?_, fun j k hj hk hjk => ?_, fun t ht => ?_, fun t j hj => ?_, fun p hp => ?_, h.once,
    fun j o hj => ?_, fun j hj => ?_, fun j o hj => ?_⟩
  · by_cases hji : j = i
    · simp [hji]
    · simp only [State.moveTo, htoken hji, hstage hji] at hj ⊢
      exact (h.below j hj).trans (Nat.lt_succ_self _)
  · simp only [State.moveTo] at hj hk hjk
    by_cases hji : j = i <;> by_cases hki : k = i
    · rw [hji, hki]
    · rw [hji, Function.update_self, htoken hki] at hjk
      rw [hstage hki] at hk
      exact absurd hjk.symm (hfresh k hki hk)
    · rw [hki, Function.update_self, htoken hji] at hjk
      rw [hstage hji] at hj
      exact absurd hjk (hfresh j hji hj)
    · rw [htoken hji, htoken hki] at hjk
      rw [hstage hji] at hj
      rw [hstage hki] at hk
      exact h.distinct j k hj hk hjk
  · obtain ⟨j, hj, hbegun⟩ := h.known t ht
    refine ⟨j, ?_, ?_⟩
    · exact (htoken (hne hbegun)).trans hj
    · simpa only [State.moveTo, hstage (hne hbegun)] using hbegun
  · obtain ⟨htoken', hhold, hnone⟩ := h.entry t j hj
    have hji := hne (Stage.begun_of_mayHold hhold)
    refine ⟨(htoken hji).trans htoken', ?_, hnone⟩
    simpa only [State.moveTo, hstage hji] using hhold
  · obtain ⟨hbegun, hrest⟩ := h.hand p hp
    have hji := hne hbegun
    simpa only [State.moveTo, hstage hji, htoken hji] using And.intro hbegun hrest
  · obtain ⟨hbegun, hrest⟩ := h.full j o hj
    have hji := hne hbegun
    simpa only [State.moveTo, hstage hji, htoken hji] using And.intro hbegun hrest
  · by_cases hji : j = i
    · simp [State.moveTo, hji, Stage.listens] at hj
    · simp only [State.moveTo, hstage hji, htoken hji] at hj ⊢
      exact h.held j hj
  · by_cases hji : j = i
    · simp [State.moveTo, hji] at hj
    · simp only [State.moveTo, hstage hji, htoken hji] at hj ⊢
      exact h.answered j o hj

/-- The sender goes into the table. -/
theorem SendersOk.insert (h : SendersOk env s) (hi : s.stage i = .numbered) :
    SendersOk env { s.moveTo i .inserted with
      pending := Function.update s.pending (s.token i) (some i) } := by
  have hfirst := h.first_eq_none hi
  have hne : ∀ {j}, (s.stage j).begun → j ≠ i := by
    rintro j hj rfl
    rw [hi] at hj
    cases hj
  have hstarting : ∀ j, (s.moveTo i .inserted).stage j ≠ .starting → s.stage j ≠ .starting := by
    intro j hj
    by_cases hji : j = i
    · simp [hji, hi]
    · rwa [State.moveTo_stage_of_ne s hji] at hj
  have hother : ∀ {j}, (s.stage j).begun →
      Function.update s.pending (s.token i) (some i) (s.token j) = s.pending (s.token j) := by
    intro j hj
    refine Function.update_of_ne (fun htoken => hne hj ?_) ..
    exact h.distinct j i (Stage.ne_starting_of_begun hj) (by simp [hi]) htoken
  have hbegun : ∀ {j}, (s.stage j).begun → ((s.moveTo i .inserted).stage j).begun := by
    intro j hj
    rwa [State.moveTo_stage_of_ne s (hne hj)]
  refine ⟨fun j hj => h.below j (hstarting j hj),
    fun j k hj hk => h.distinct j k (hstarting j hj) (hstarting k hk), fun t ht => ?_, fun t j hj => ?_,
    fun p hp => ?_, h.once, fun j o hj => ?_, fun j hj => ?_, fun j o hj => ?_⟩
  · obtain ⟨j, htoken, hj⟩ := h.known t ht
    exact ⟨j, htoken, hbegun hj⟩
  · by_cases htt : t = s.token i
    · simp only [htt, Function.update_self, Option.some.injEq] at hj
      subst hj
      exact ⟨htt.symm, by simp [Stage.mayHold], htt ▸ hfirst⟩
    · simp only [Function.update_of_ne htt] at hj
      obtain ⟨htoken, hhold, hnone⟩ := h.entry t j hj
      refine ⟨htoken, ?_, hnone⟩
      simpa only [State.moveTo_stage_of_ne s (hne (Stage.begun_of_mayHold hhold))] using hhold
  · obtain ⟨hj, hnone, hrest⟩ := h.hand p hp
    exact ⟨hbegun hj, (hother hj).trans hnone, hrest⟩
  · obtain ⟨hj, hnone, hrest⟩ := h.full j o hj
    exact ⟨hbegun hj, (hother hj).trans hnone, hrest⟩
  · by_cases hji : j = i
    · subst hji
      exact .inl (Function.update_self ..)
    · simp only [State.moveTo_stage_of_ne s hji] at hj
      exact (h.held j hj).imp_left (hother (Stage.begun_of_listens hj)).trans
  · by_cases hji : j = i
    · simp [hji] at hj
    · simp only [State.moveTo_stage_of_ne s hji] at hj
      exact ⟨(hother (by rw [hj]; rfl)).trans (h.answered j o hj).1, (h.answered j o hj).2⟩

/-- The task gives up and takes its entry out, if it is still there. -/
theorem SendersOk.cancel (h : SendersOk env s) (hi : s.stage i = .elapsed) :
    SendersOk env { s.moveTo i (.done (backstop (env i))) with
      pending := Function.update s.pending (s.token i) none } := by
  have hbegun : (s.stage i).begun := by rw [hi]; rfl
  have hgone : ∀ {t}, s.pending t = none → Function.update s.pending (s.token i) none t = none := by
    intro t ht
    by_cases htt : t = s.token i
    · rw [htt, Function.update_self]
    · rw [Function.update_of_ne htt, ht]
  -- without the entry, the task may end like any other that has begun
  have herased : SendersOk env { s with pending := Function.update s.pending (s.token i) none } := by
    refine ⟨h.below, h.distinct, h.known, fun t j hj => ?_,
      fun p hp => ⟨(h.hand p hp).1, hgone (h.hand p hp).2.1, (h.hand p hp).2.2⟩, h.once,
      fun j o hj => ⟨(h.full j o hj).1, hgone (h.full j o hj).2.1, (h.full j o hj).2.2⟩, fun j hj => ?_,
      fun j o hj => ⟨hgone (h.answered j o hj).1, (h.answered j o hj).2⟩⟩
    · by_cases htt : t = s.token i
      · simp only [htt, Function.update_self] at hj
        cases hj
      · simp only [Function.update_of_ne htt] at hj
        exact h.entry t j hj
    · have hne : s.token j ≠ s.token i := by
        intro htoken
        have hji := h.unique (Stage.begun_of_listens hj) hbegun htoken
        simp only [hji, hi] at hj
        cases hj
      exact (h.held j hj).imp_left (Function.update_of_ne hne ..).trans
  refine herased.moveTo hbegun rfl (.inl (Function.update_self ..)) nofun fun o ho => ?_
  cases ho
  exact ⟨Function.update_self .., .inr rfl⟩

/-- A sender is used; nobody listens if the task has given up. -/
theorem SendersOk.deliver (h : SendersOk env s) {k : ℕ} {p : ℕ × Outcome} (hk : s.hands[k]? = some p) :
    SendersOk env { s with
      hands := s.hands.eraseIdx k
      box := if (s.stage p.1).listens then Function.update s.box p.1 (some p.2) else s.box } := by
  have hp := List.mem_of_getElem? hk
  obtain ⟨hbegun, hnone, hbox, hfirst⟩ := h.hand p hp
  have hperm : (p.1 :: (s.hands.eraseIdx k).map Prod.fst).Perm (s.hands.map Prod.fst) := by
    obtain ⟨hlt, rfl⟩ := List.getElem?_eq_some_iff.1 hk
    exact (List.getElem_cons_eraseIdx_perm hlt).map Prod.fst
  -- the sender of a task is on its way once
  obtain ⟨hlast, honce⟩ := List.nodup_cons.1 (hperm.nodup_iff.2 h.once)
  have hmem : ∀ {j}, j ∈ (s.hands.eraseIdx k).map Prod.fst ↔ j ∈ s.hands.map Prod.fst ∧ j ≠ p.1 := by
    intro j
    rw [← hperm.mem_iff, List.mem_cons]
    refine ⟨fun hj => ⟨.inr hj, ?_⟩, fun hj => hj.1.resolve_left hj.2⟩
    rintro rfl
    exact hlast hj
  have hother : ∀ {j}, j ≠ p.1 →
      (if (s.stage p.1).listens then Function.update s.box p.1 (some p.2) else s.box) j = s.box j := by
    intro j hj
    split_ifs
    · exact Function.update_of_ne hj ..
    · rfl
  refine ⟨h.below, h.distinct, h.known, h.entry, fun q hq => ?_, honce, fun j o hj => ?_, fun j hj => ?_,
    h.answered⟩
  · have hq' := (List.eraseIdx_sublist s.hands k).subset hq
    obtain ⟨hbegun', hnone', hbox', hfirst'⟩ := h.hand q hq'
    have hne : q.1 ≠ p.1 := (hmem.1 (List.mem_map_of_mem hq)).2
    exact ⟨hbegun', hnone', (hother hne).trans hbox', hfirst'⟩
  · by_cases hjp : j = p.1
    · subst hjp
      refine ⟨hbegun, hnone, ?_, fun hmem' => (hmem.1 hmem').2 rfl⟩
      simp only at hj
      split_ifs at hj with hlistens
      · rw [Function.update_self] at hj
        rw [hfirst, hj]
      · rw [hbox] at hj
        cases hj
    · simp only [hother hjp] at hj
      obtain ⟨hbegun', hnone', hfirst', hhands⟩ := h.full j o hj
      exact ⟨hbegun', hnone', hfirst', fun hmem' => hhands (hmem.1 hmem').1⟩
  · by_cases hjp : j = p.1
    · subst hjp
      refine .inr (.inr ?_)
      simp [hj]
    · simp only [hother hjp]
      rcases h.held j hj with hj' | hj' | hj'
      · exact .inl hj'
      · exact .inr (.inl (hmem.2 ⟨hj', hjp⟩))
      · exact .inr (.inr hj')

/-- Who waits before a completion has a token that travels, or that was completed, or this one. -/
theorem SendersOk.completes (h : SendersOk env s) (ht : ∃ i, s.token i = t ∧ (s.stage i).begun)
    (htravels : ∀ i, s.stage i = .waiting →
      s.token i ∈ s.travelling ∨ first s.log (s.token i) ≠ none ∨ s.token i = t) (outcome : Outcome) :
    CompletionsOk env (Completions.complete t outcome s) := by
  refine { toSendersOk := h.complete ht outcome, travels := fun i hi => ?_ }
  have hsame := sameLists_complete t outcome s
  rw [hsame.stage] at hi
  rw [hsame.token, hsame.travelling, complete_log, first_append]
  rcases htravels i hi with hi | hi | hi
  · exact .inl hi
  · obtain ⟨o, ho⟩ := Option.ne_none_iff_exists'.1 hi
    exact .inr (by simp [ho])
  · exact .inr (by simp [hi])

theorem CompletionsOk.moveTo (h : CompletionsOk env s) (hi : (s.stage i).begun) {stage : Stage}
    (hbegun : stage.begun) (hhold : s.pending (s.token i) = none ∨ stage.mayHold)
    (hlistens : stage.listens = false)
    (hover : ∀ o, stage = .done o → s.pending (s.token i) = none ∧
      (first s.log (s.token i) = some o ∨ o = backstop (env i))) :
    CompletionsOk env (s.moveTo i stage) := by
  refine { toSendersOk := h.toSendersOk.moveTo hi hbegun hhold (by simp [hlistens]) hover,
           travels := fun j hj => ?_ }
  by_cases hji : j = i
  · rw [hji, State.moveTo_stage_self] at hj
    rw [hj] at hlistens
    cases hlistens
  · rw [State.moveTo_stage_of_ne s hji] at hj
    exact h.travels j hj

/-- The submitter thread moves tokens from one list to another. -/
theorem CompletionsOk.relist (h : CompletionsOk env s) {jobs batch : List ℕ}
    {failed argsFailed : List (ℕ × Outcome)} {accepted : List ℕ} {rejected : ℕ}
    (hmem : ∀ t, t ∈ jobs ++ batch ++ failed.map Prod.fst ++ argsFailed.map Prod.fst ++ accepted ↔
      t ∈ s.travelling) :
    CompletionsOk env { s with
      jobs := jobs, batch := batch, failed := failed, argsFailed := argsFailed, accepted := accepted,
      asyncRejected := rejected } :=
  { toSendersOk := h.toSendersOk.relist fun t ht => h.known t (.inl ((hmem t).1 ht)),
    travels := fun i hi => (h.travels i hi).imp_left (hmem _).2 }

theorem CompletionsOk.submitOne (h : CompletionsOk env s) {r : Submitted}
    (hs : step env s (.submitOne r) = some s') : CompletionsOk env s' := by
  simp only [step] at hs
  split at hs
  · cases hs
  · next t batch hbatch =>
    cases r <;> cases hs <;> refine h.relist fun t' => ?_ <;>
      simp only [State.travelling, hbatch, List.map_append, List.mem_append, List.mem_cons, List.map_cons,
        List.map_nil, List.not_mem_nil, or_false] <;> tauto

theorem CompletionsOk.drain (h : CompletionsOk env s) {n : ℕ} {broken : Option String}
    (hs : step env s (.drain n broken) = some s') : CompletionsOk env s' := by
  simp only [step] at hs
  split_ifs at hs with hidle
  obtain ⟨hbatch, hfailed, hargs, -⟩ := hidle
  have hsplit : ∀ t, t ∈ s.jobs ↔ t ∈ s.jobs.take n ∨ t ∈ s.jobs.drop n := fun t => by
    rw [← List.mem_append, List.take_append_drop]
  cases broken with
  | none =>
    cases hs
    refine h.relist fun t => ?_
    simp only [State.travelling, hbatch, hfailed, hargs, List.mem_append, hsplit t, List.map_nil,
      List.not_mem_nil, or_false]
    tauto
  | some msg =>
    cases hs
    refine h.relist fun t => ?_
    simp only [State.travelling, hbatch, hfailed, hargs, List.mem_append, hsplit t, List.map_nil,
      List.not_mem_nil, or_false, List.map_map, Function.comp_def, List.map_id']
    tauto

/-- A token leaves a list of failures and is completed. -/
theorem CompletionsOk.reported (h : CompletionsOk env s) {failed argsFailed : List (ℕ × Outcome)}
    (hmem : ∀ t', t' ∈ s.travelling ↔
      t' ∈ State.travelling { s with failed := failed, argsFailed := argsFailed } ∨ t' = t) (outcome : Outcome) :
    CompletionsOk env
      (Completions.complete t outcome { s with failed := failed, argsFailed := argsFailed }) := by
  have hbase : SendersOk env { s with failed := failed, argsFailed := argsFailed } :=
    h.toSendersOk.relist fun t' ht' => h.known t' (.inl ((hmem t').2 (.inl ht')))
  refine hbase.completes (h.known t (.inl ((hmem t).2 (.inr rfl)))) (fun i hi => ?_) outcome
  rcases h.travels i hi with hi' | hi'
  · exact ((hmem _).1 hi').imp_right .inr
  · exact .inr (.inl hi')

theorem CompletionsOk.report (h : CompletionsOk env s) (hs : step env s .report = some s') :
    CompletionsOk env s' := by
  simp only [step] at hs
  split at hs
  · next t outcome failed hbatch hfailed =>
    cases hs
    refine h.reported (fun t' => ?_) outcome
    simp only [State.travelling, hfailed, List.map_cons, List.mem_append, List.mem_cons]
    tauto
  · next t outcome argsFailed hbatch hfailed hargs =>
    cases hs
    refine h.reported (fun t' => ?_) outcome
    simp only [State.travelling, hargs, List.map_cons, List.mem_append, List.mem_cons]
    tauto
  · cases hs

theorem CompletionsOk.send (h : CompletionsOk env s) {ok : Bool} (hi : s.stage i = .inserted)
    (hs : step env s (.send i ok) = some s') : CompletionsOk env s' := by
  have hbegun : (s.stage i).begun := by rw [hi]; rfl
  have hmoved : SendersOk env (s.moveTo i .waiting) :=
    h.toSendersOk.moveTo hbegun rfl (.inr rfl) (fun _ => by rw [hi]; rfl) nofun
  have hself : ∃ j, (s.moveTo i .waiting).token j = s.token i ∧ ((s.moveTo i .waiting).stage j).begun :=
    ⟨i, rfl, by rw [State.moveTo_stage_self]; rfl⟩
  have hold : ∀ j, (s.moveTo i .waiting).stage j = .waiting →
      s.token j ∈ s.travelling ∨ first s.log (s.token j) ≠ none ∨ s.token j = s.token i := by
    intro j hj
    by_cases hji : j = i
    · exact .inr (.inr (by rw [hji]))
    · rw [State.moveTo_stage_of_ne s hji] at hj
      exact (h.travels j hj).imp_right .inl
  simp only [step, hi] at hs
  split_ifs at hs with hok <;> cases hs
  · have hmem : ∀ t, t ∈ s.jobs ++ [s.token i] ++ s.batch ++ s.failed.map Prod.fst ++
        s.argsFailed.map Prod.fst ++ s.accepted ↔ t ∈ s.travelling ∨ t = s.token i := by
      intro t
      simp only [State.travelling, List.mem_append, List.mem_singleton]
      tauto
    refine { toSendersOk := hmoved.relist fun t ht => ?_, travels := fun j hj => ?_ }
    · rcases (hmem t).1 ht with ht | rfl
      · exact hmoved.known t (.inl ht)
      · exact hself
    · rcases hold j hj with hj' | hj' | hj'
      · exact .inl ((hmem _).2 (.inl hj'))
      · exact .inr hj'
      · exact .inl ((hmem _).2 (.inr hj'))
  · exact hmoved.completes hself hold _

/-- The sender of a task that listens is never dropped. -/
theorem SendersOk.not_closed (h : SendersOk env s) : step env s (.closed i) = none := by
  simp only [step]
  split
  · next hi hbox =>
    refine if_neg fun ⟨hpending, hhands⟩ => ?_
    rcases h.held i (by rw [hi]; rfl) with hi' | hi' | hi'
    · exact hpending hi'
    · exact hhands hi'
    · exact hi' hbox
  · rfl

/-- Only a new token moves the counter. -/
theorem nextToken_le_step {l : Label} (hs : step env s l = some s') : s.nextToken ≤ s'.nextToken := by
  cases l with
  | number i =>
    simp only [step] at hs
    split at hs <;> cases hs
    exact Nat.le_succ _
  | insert i | receive i | elapse i | cancel i =>
    simp only [step] at hs
    split at hs <;> cases hs
    exact le_rfl
  | send i ok =>
    simp only [step] at hs
    split at hs
    · split_ifs at hs <;> cases hs
      · exact le_rfl
      · rw [(sameLists_complete _ _ _).nextToken]
        exact le_rfl
    · cases hs
  | closed i =>
    simp only [step] at hs
    split at hs
    · obtain ⟨-, rfl⟩ := Option.ite_none_right_eq_some.1 hs |>.imp_right Option.some.inj
      exact le_rfl
    · cases hs
  | deliver k =>
    obtain ⟨p, -, rfl⟩ := Option.map_eq_some_iff.1 hs
    exact le_rfl
  | drain n broken =>
    obtain ⟨-, hs⟩ := Option.ite_none_right_eq_some.1 hs
    cases broken <;> cases hs <;> exact le_rfl
  | submitOne r =>
    simp only [step] at hs
    split at hs
    · cases hs
    · cases r <;> cases hs <;> exact le_rfl
  | report =>
    simp only [step] at hs
    split at hs <;> cases hs <;> rw [(sameLists_complete _ _ _).nextToken]
  | callback t outcome =>
    obtain ⟨-, rfl⟩ := Option.ite_none_right_eq_some.1 hs |>.imp_right Option.some.inj
    rw [(sameLists_complete _ _ _).nextToken]

theorem CompletionsOk.step {l : Label} (h : CompletionsOk env s) (hwrap : s'.nextToken ≤ 2 ^ 64)
    (hs : Completions.step env s l = some s') : CompletionsOk env s' := by
  cases l with
  | number i =>
    simp only [Completions.step] at hs
    split at hs
    · next hi =>
      cases hs
      refine { toSendersOk := h.toSendersOk.number hi hwrap, travels := fun j hj => ?_ }
      by_cases hji : j = i
      · simp [State.moveTo, hji] at hj
      · simp only [State.moveTo, Function.update_of_ne hji] at hj ⊢
        exact h.travels j hj
    · cases hs
  | insert i =>
    simp only [Completions.step] at hs
    split at hs
    · next hi =>
      cases hs
      refine { toSendersOk := h.toSendersOk.insert hi, travels := fun j hj => ?_ }
      by_cases hji : j = i
      · simp [State.moveTo, hji] at hj
      · simp only [State.moveTo, Function.update_of_ne hji] at hj
        exact h.travels j hj
    · cases hs
  | send i ok =>
    cases hi : s.stage i with
    | inserted => exact h.send hi hs
    | _ => simp [Completions.step, hi] at hs
  | receive i =>
    simp only [Completions.step] at hs
    split at hs
    · next outcome hi hbox =>
      cases hs
      obtain ⟨hbegun, hnone, hfirst, -⟩ := h.full i outcome hbox
      refine h.moveTo hbegun rfl (.inl hnone) rfl fun o ho => ?_
      cases ho
      exact ⟨hnone, .inl hfirst⟩
    · cases hs
  | closed i => rw [h.not_closed] at hs; cases hs
  | elapse i =>
    simp only [Completions.step] at hs
    split at hs
    · next hi hbox =>
      cases hs
      exact h.moveTo (by rw [hi]; rfl) rfl (.inr rfl) rfl nofun
    · cases hs
  | cancel i =>
    simp only [Completions.step] at hs
    split at hs
    · next hi =>
      cases hs
      refine { toSendersOk := h.toSendersOk.cancel hi, travels := fun j hj => ?_ }
      by_cases hji : j = i
      · simp [State.moveTo, hji] at hj
      · simp only [State.moveTo, Function.update_of_ne hji] at hj
        exact h.travels j hj
    · cases hs
  | deliver k =>
    obtain ⟨p, hk, rfl⟩ := Option.map_eq_some_iff.1 hs
    exact { toSendersOk := h.toSendersOk.deliver hk, travels := h.travels }
  | drain n broken => exact h.drain hs
  | submitOne r => exact h.submitOne hs
  | report => exact h.report hs
  | callback t outcome =>
    obtain ⟨ht, rfl⟩ := Option.ite_none_right_eq_some.1 hs |>.imp_right Option.some.inj
    have hknown := h.known t (.inl (by simp [State.travelling, ht]))
    exact h.toSendersOk.completes hknown (fun i hi => (h.travels i hi).imp_right .inl) outcome

theorem completionsOk_of_reachable (h : (system env).Reachable System.anyStep s)
    (hwrap : s.nextToken ≤ 2 ^ 64) : CompletionsOk env s := by
  refine h.invariant (I := fun s => s.nextToken ≤ 2 ^ 64 → CompletionsOk env s) ?_ ?_ hwrap
  · rintro t rfl -
    constructor
    · constructor <;> simp [State.travelling, first, Stage.listens]
    · simp
  · intro t l u ht _ hstep hwrap'
    exact (ht ((nextToken_le_step hstep).trans hwrap')).step hwrap' hstep

/-- The steps by which tasks are answered: those of the submitter thread and of the shim, the use of a sender,
and the end of a task that finds its outcome. -/
def Answering (_ : State) : Label → Prop
  | .drain .. | .submitOne _ | .report | .callback .. | .deliver _ | .receive _ => True
  | .number _ | .insert _ | .send .. | .closed _ | .elapse _ | .cancel _ => False

/-- A task can be answered, with the first completion of its token. -/
def Answerable (env : ℕ → Envelope) (s : State) (i : ℕ) : Prop :=
  ∃ t outcome, (system env).Reach Answering s t ∧ t.stage i = .done outcome ∧
    first t.log (s.token i) = some outcome

theorem Answerable.of_step {l : Label} (hs : step env s l = some s') (hl : Answering s l)
    (htoken : s'.token i = s.token i) (h : Answerable env s' i) : Answerable env s i := by
  obtain ⟨t, outcome, hreach, hdone, hfirst⟩ := h
  exact ⟨t, outcome, (System.Reach.refl.tail hl hs).trans hreach, hdone, htoken ▸ hfirst⟩

theorem answerable_of_box (h : CompletionsOk env s) (hi : s.stage i = .waiting)
    (hbox : s.box i = some outcome) : Answerable env s i := by
  have hs : step env s (.receive i) = some (s.moveTo i (.done outcome)) := by
    simp only [step, hi, hbox]
  have hreach : (system env).Reach Answering s (s.moveTo i (.done outcome)) :=
    System.Reach.refl.tail (a := .receive i) trivial hs
  exact ⟨_, outcome, hreach, s.moveTo_stage_self .., (h.full i outcome hbox).2.2.1⟩

/-- Once its token is completed, the outcome of a task that waits is on its way. -/
theorem CompletionsOk.returns (h : CompletionsOk env s) (hi : s.stage i = .waiting)
    (hfirst : first s.log (s.token i) = some outcome) :
    (i, outcome) ∈ s.hands ∨ s.box i = some outcome := by
  rcases h.held i (by rw [hi]; rfl) with hheld | hheld | hheld
  · rw [(h.entry _ _ hheld).2.2] at hfirst
    cases hfirst
  · obtain ⟨p, hp, rfl⟩ := List.mem_map.1 hheld
    have hsame := (h.hand p hp).2.2.2.symm.trans hfirst
    cases hsame
    exact .inl hp
  · obtain ⟨o, ho⟩ := Option.ne_none_iff_exists'.1 hheld
    have hsame := (h.full i o ho).2.2.1.symm.trans hfirst
    cases hsame
    exact .inr ho

theorem answerable_of_first (h : CompletionsOk env s) (hwrap : s.nextToken ≤ 2 ^ 64)
    (hi : s.stage i = .waiting) (hfirst : first s.log (s.token i) = some outcome) :
    Answerable env s i := by
  rcases h.returns hi hfirst with hhand | hbox
  · obtain ⟨k, hk⟩ := List.mem_iff_getElem?.1 hhand
    have hs : step env s (.deliver k) = some { s with
        hands := s.hands.eraseIdx k
        box := Function.update s.box i (some outcome) } := by
      simp only [step, hk, Option.map_some, hi, Stage.listens, ↓reduceIte]
    refine Answerable.of_step hs trivial rfl ?_
    exact answerable_of_box (h.step hwrap hs) hi (Function.update_self ..)
  · exact answerable_of_box h hi hbox

/-- The submitter thread goes on as long as it has a token. -/
theorem submitter_moves (env : ℕ → Envelope) (ht : t ∈ s.travelling) (haccepted : t ∉ s.accepted) :
    ∃ l s', step env s l = some s' ∧ Answering s l ∧ s'.left < s.left ∧ s'.stage = s.stage ∧
      s'.token = s.token ∧ s'.nextToken = s.nextToken := by
  cases hbatch : s.batch with
  | cons t' batch =>
    refine ⟨.submitOne .accepted, { s with batch := batch, accepted := s.accepted ++ [t'] }, ?_, trivial, ?_,
      rfl, rfl, rfl⟩
    · simp only [step, hbatch]
    · simp only [State.left, hbatch, List.length_cons]
      omega
  | nil =>
    cases hfailed : s.failed with
    | cons p failed =>
      have hsame := sameLists_complete p.1 p.2 { s with failed := failed }
      refine ⟨.report, complete p.1 p.2 { s with failed := failed }, ?_, trivial, ?_, hsame.stage, hsame.token,
        hsame.nextToken⟩
      · simp only [step, hbatch, hfailed]
      · rw [hsame.left]
        simp only [State.left, hfailed, List.length_cons]
        omega
    | nil =>
      cases hargs : s.argsFailed with
      | cons p argsFailed =>
        have hsame := sameLists_complete p.1 p.2 { s with argsFailed := argsFailed }
        refine ⟨.report, complete p.1 p.2 { s with argsFailed := argsFailed }, ?_, trivial, ?_, hsame.stage,
          hsame.token, hsame.nextToken⟩
        · simp only [step, hbatch, hfailed, hargs]
        · rw [hsame.left]
          simp only [State.left, hargs, List.length_cons]
          omega
      | nil =>
        have hjobs : t ∈ s.jobs := by
          simpa [State.travelling, hbatch, hfailed, hargs, haccepted] using ht
        have hlength : 1 ≤ s.jobs.length := List.length_pos_of_mem hjobs
        refine ⟨.drain 1 none, { s with jobs := s.jobs.drop 1, batch := s.jobs.take 1 }, ?_, trivial, ?_, rfl,
          rfl, rfl⟩
        · simp [step, hbatch, hfailed, hargs, DRAIN_MAX, hlength]
        · simp only [State.left, hbatch, hfailed, hargs, List.length_drop, List.length_take, List.length_nil]
          omega

/-- **A task that waits can be answered**, by induction on what the submitter thread has left. -/
theorem CompletionsOk.answerable (h : CompletionsOk env s) (hwrap : s.nextToken ≤ 2 ^ 64)
    (hi : s.stage i = .waiting) : Answerable env s i := by
  induction hn : s.left using Nat.strong_induction_on generalizing s with
  | _ n ih =>
    cases hfirst : first s.log (s.token i) with
    | some outcome => exact answerable_of_first h hwrap hi hfirst
    | none =>
      have htravels := (h.travels i hi).resolve_right fun hne => hne hfirst
      by_cases haccepted : s.token i ∈ s.accepted
      · have hs : Completions.step env s (.callback (s.token i) channelDropped)
            = some (complete (s.token i) channelDropped s) := by
          simp only [Completions.step, haccepted, ↓reduceIte]
        have hsame := sameLists_complete (s.token i) channelDropped s
        refine Answerable.of_step hs trivial (congrFun hsame.token i) ?_
        have hwrap' := hsame.nextToken.le.trans hwrap
        have hdone : first (complete (s.token i) channelDropped s).log
            ((complete (s.token i) channelDropped s).token i) = some channelDropped := by
          rw [hsame.token, complete_log, first_append, hfirst, if_pos rfl, Option.none_or]
        refine answerable_of_first (h.step hwrap' hs) hwrap' ?_ hdone
        rw [hsame.stage, hi]
      · obtain ⟨l, s', hs, hl, hleft, hstage, htoken, hnext⟩ := submitter_moves env htravels haccepted
        refine Answerable.of_step hs hl (congrFun htoken i) ?_
        have hwrap' := hnext.le.trans hwrap
        exact ih _ (hn ▸ hleft) (h.step hwrap' hs) hwrap' (by rw [hstage, hi]) rfl

end Invariant

/-- **Completions reach their own task.** In every run of the tasks, the submitter thread and the shim, until
the counter of the tokens wraps:
* no two tasks have the same token;
* an outcome that a task ends with is the first completion of its own token, whoever else completes it
  later, or the failure of the backstop; a channel is never found closed;
* the table has an entry under a token only for the task with this token, and only while the task has not
  ended;
* as long as nobody has completed the token of a task that waits, its entry is in the table, and the token is
  with the submitter thread or with the shim; once somebody has, the outcome is on its way or arrived;
* a task that waits can be answered. -/
theorem completions_sound (env : ℕ → Envelope) (s : State)
    (h : (system env).Reachable System.anyStep s) (hwrap : s.nextToken ≤ 2 ^ 64) :
    (∀ i j, s.stage i ≠ .starting → s.stage j ≠ .starting → s.token i = s.token j → i = j) ∧
    (∀ i outcome, s.stage i = .done outcome →
      first s.log (s.token i) = some outcome ∨ outcome = backstop (env i)) ∧
    (∀ i, step env s (.closed i) = none) ∧
    (∀ t i, s.pending t = some i → s.token i = t ∧ ∀ outcome, s.stage i ≠ .done outcome) ∧
    ∀ i, s.stage i = .waiting →
      (first s.log (s.token i) = none → s.pending (s.token i) = some i ∧ s.token i ∈ s.travelling) ∧
      (∀ outcome, first s.log (s.token i) = some outcome →
        (i, outcome) ∈ s.hands ∨ s.box i = some outcome) ∧
      Answerable env s i := by
  have hok := completionsOk_of_reachable h hwrap
  refine ⟨hok.distinct, fun i o hi => (hok.answered i o hi).2, fun i => hok.not_closed, fun t i hi => ?_,
    fun i hi => ⟨fun hfirst => ⟨?_, ?_⟩, fun outcome hfirst => hok.returns hi hfirst,
      hok.answerable hwrap hi⟩⟩
  · obtain ⟨htoken, hhold, -⟩ := hok.entry t i hi
    refine ⟨htoken, fun o ho => ?_⟩
    rw [ho] at hhold
    cases hhold
  · rcases hok.held i (by rw [hi]; rfl) with hheld | hheld | hheld
    · exact hheld
    · obtain ⟨p, hp, rfl⟩ := List.mem_map.1 hheld
      rw [(hok.hand p hp).2.2.2] at hfirst
      cases hfirst
    · obtain ⟨o, ho⟩ := Option.ne_none_iff_exists'.1 hheld
      rw [(hok.full i o ho).2.2.1] at hfirst
      cases hfirst
  · exact (hok.travels i hi).resolve_right fun hne => hne hfirst

/-- The first task is answered twice, the second gives up before it is answered, and the arguments of the
third cannot be decoded. -/
def threeTasks : List Label :=
  [.number 0, .number 1, .insert 1, .insert 0, .send 0 true, .send 1 true, .drain 2 none,
    .submitOne .accepted, .number 2, .insert 2, .send 2 true, .submitOne .accepted, .callback 1 (.success "7"),
    .drain 1 none, .submitOne (.argsFailed "lone surrogate"), .callback 1 (.success "8"), .elapse 1, .report,
    .callback 2 (.success "9"), .deliver 0, .cancel 1, .deliver 0, .deliver 0, .receive 0, .receive 2]

/-- The state after `threeTasks`, with a `timeout_ms` of 1000. -/
def allAnswered : State :=
  ((system fun _ => plainEnvelope 1000).run {} threeTasks).getD {}

theorem completions_sound_allAnswered :
    allAnswered.stage 0 = .done (.success "7") ∧
      allAnswered.stage 1 = .done (backstop (plainEnvelope 1000)) ∧
      allAnswered.stage 2 = .done (argsFailureOutcome "lone surrogate") ∧
      (first allAnswered.log 1 = some (.success "7") ∨
        Outcome.success "7" = backstop (plainEnvelope 1000)) := by
  have hreach : (system fun _ => plainEnvelope 1000).Reachable System.anyStep allAnswered :=
    System.reachable_getD rfl (fun _ _ _ => trivial) (by rfl)
  obtain ⟨-, hdone, -, -, -⟩ := completions_sound _ _ hreach (by decide)
  exact ⟨rfl, rfl, rfl, hdone 0 _ rfl⟩

end Cauli.Completions
