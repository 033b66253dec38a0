import Mathlib.Data.List.Nodup
import Mathlib.Data.List.Perm.Basic
import Cauli.Lib.Transition

/-!
# The queue of an event loop (`worker/src/shim.py`)

`submit_async` puts a task on the list of a loop under the lock of that list, and wakes the loop only
if the list was empty; `_drain` runs on the loop, takes the whole list under the lock and then starts
its tasks one after the other. The threads that submit may stop between the lock and the wake-up, and
go on submitting while the loop is in `_drain`.

* `Queue`: one loop with its list; the calls are numbered as they pass the lock;
* `submitAsync`, `step`: the code between two points where another thread may run;
* `Sound`: the accepted calls are the started ones, those of the batch and those of the list, in this
  order; and somebody will empty a list that is not empty;
* `ahead`: the steps of the loop until a call is started, which submissions do not change;
* `submissions_started_once`.

`call_soon_threadsafe` succeeds here: the loop is not closed.
-/

namespace Cauli.AsyncQueue

/-- A call of `submit_async`: its number and what it submits. -/
structure Call (α : Type*) where
  number : ℕ
  job : α

/-- A loop. `waking` are the threads that are about to schedule a `_drain`, and `batch` is what a
`_drain` has taken and not started; the calls by number, accepted, refused and started, are records. -/
structure Queue (α : Type*) where
  pending : List (Call α) := []
  batch : Option (List (Call α)) := none
  scheduled : ℕ := 0
  waking : List ℕ := []
  hbSub : ℕ := 0
  capWarned : Bool := false
  calls : ℕ := 0
  accepted : List ℕ := []
  rejected : List ℕ := []
  started : List ℕ := []

variable {α : Type*}

/-- The calls that a `_drain` has taken and not started. -/
def Queue.taken (q : Queue α) : List ℕ := (q.batch.getD []).map Call.number

/-- The calls on the list. -/
def Queue.listed (q : Queue α) : List ℕ := q.pending.map Call.number

/-- The part of `submit_async` under the lock: `AsyncQueueFull` at the cap, else the task is on the list
and the thread wakes the loop if it is the only one there. -/
def submitAsync (cap thread : ℕ) (job : α) (q : Queue α) : Queue α :=
  if cap ≤ q.pending.length then
    { q with capWarned := true, calls := q.calls + 1, rejected := q.rejected ++ [q.calls] }
  else
    let pending := q.pending ++ [⟨q.calls, job⟩]
    { q with
      pending := pending
      hbSub := q.hbSub + 1
      waking := if pending.length = 1 then q.waking ++ [thread] else q.waking
      calls := q.calls + 1
      accepted := q.accepted ++ [q.calls] }

/-- The steps of the threads and of the loop. -/
inductive Act (α : Type*)
  | submit (thread : ℕ) (job : α)
  | callSoon (thread : ℕ)
  /-- A scheduled `_drain` takes the list. -/
  | drain
  /-- It starts the next task. -/
  | startTask
  /-- It returns. -/
  | drained

/-- The loop acts, and not a thread that submits. -/
def Act.onLoop : Act α → Bool
  | .submit .. | .callSoon _ => false
  | .drain | .startTask | .drained => true

/-- One step. A loop runs one callback at a time. -/
def step (cap : ℕ) (q : Queue α) : Act α → Option (Queue α)
  | .submit thread job => if thread ∈ q.waking then none else some (submitAsync cap thread job q)
  | .callSoon thread =>
    if thread ∈ q.waking then
      some { q with waking := q.waking.erase thread, scheduled := q.scheduled + 1 }
    else none
  | .drain =>
    if q.batch.isNone ∧ 0 < q.scheduled then
      some { q with scheduled := q.scheduled - 1, batch := some q.pending, pending := [] }
    else none
  | .startTask =>
    match q.batch with
    | some (c :: rest) => some { q with batch := some rest, started := q.started ++ [c.number] }
    | _ => none
  | .drained =>
    match q.batch with
    | some [] => some { q with batch := none }
    | _ => none

/-- The runs of a loop. -/
def system (α : Type*) (cap : ℕ) : Transition.System (Queue α) (Act α) where
  init q := q = {}
  step := step cap

/-- **What a step can do.** -/
theorem step_cases {cap : ℕ} {q q' : Queue α} {a : Act α} (h : step cap q a = some q') :
    (∃ thread job, a = .submit thread job ∧ q' = submitAsync cap thread job q) ∨
    (∃ thread, a = .callSoon thread ∧
      q' = { q with waking := q.waking.erase thread, scheduled := q.scheduled + 1 }) ∨
    (a = .drain ∧ q.batch = none ∧
      q' = { q with scheduled := q.scheduled - 1, batch := some q.pending, pending := [] }) ∨
    (∃ c rest, a = .startTask ∧ q.batch = some (c :: rest) ∧
      q' = { q with batch := some rest, started := q.started ++ [c.number] }) ∨
    (a = .drained ∧ q.batch = some [] ∧ q' = { q with batch := none }) := by
  cases a with
  | submit thread job =>
    simp only [step] at h
    split_ifs at h
    exact .inl ⟨thread, job, rfl, (Option.some.inj h).symm⟩
  | callSoon thread =>
    simp only [step] at h
    split_ifs at h
    exact .inr (.inl ⟨thread, rfl, (Option.some.inj h).symm⟩)
  | drain =>
    simp only [step] at h
    split_ifs at h with hready
    exact .inr (.inr (.inl ⟨rfl, Option.isNone_iff_eq_none.1 hready.1, (Option.some.inj h).symm⟩))
  | startTask =>
    simp only [step] at h
    split at h
    · next c rest hbatch =>
      exact .inr (.inr (.inr (.inl ⟨c, rest, rfl, hbatch, (Option.some.inj h).symm⟩)))
    · cases h
  | drained =>
    simp only [step] at h
    split at h
    · next hbatch => exact .inr (.inr (.inr (.inr ⟨rfl, hbatch, (Option.some.inj h).symm⟩)))
    · cases h

/-! ### The invariant -/

/-- **The list of a loop is sound.** -/
structure Sound (cap : ℕ) (q : Queue α) : Prop where
  order : q.accepted = q.started ++ (q.taken ++ q.listed)
  distinct : (q.accepted ++ q.rejected).Nodup
  numbered : ∀ n ∈ q.accepted ++ q.rejected, n < q.calls
  woken : q.pending ≠ [] → 0 < q.scheduled ∨ q.waking ≠ []
  bounded : q.pending.length ≤ cap
  submitted : q.hbSub = q.accepted.length

theorem sound_init (cap : ℕ) : Sound cap ({} : Queue α) := by
  constructor <;> simp [Queue.taken, Queue.listed]

section Invariant

variable {cap : ℕ} {q q' : Queue α}

/-- The number of a call is new. -/
theorem Sound.fresh (h : Sound cap q) : q.calls ∉ q.accepted ++ q.rejected :=
  fun hmem => Nat.lt_irrefl _ (h.numbered _ hmem)

theorem Sound.submitAsync (h : Sound cap q) (thread : ℕ) (job : α) :
    Sound cap (submitAsync cap thread job q) := by
  have hfresh := h.fresh
  have hnumbered := h.numbered
  simp only [List.mem_append] at hfresh hnumbered
  unfold AsyncQueue.submitAsync
  split_ifs with hfull
  · refine ⟨h.order, ?_, ?_, h.woken, h.bounded, h.submitted⟩
    · show (q.accepted ++ (q.rejected ++ [q.calls])).Nodup
      rw [← List.append_assoc, List.nodup_append_comm, List.singleton_append]
      exact List.nodup_cons.2 ⟨h.fresh, h.distinct⟩
    · intro n hn
      simp only [List.mem_append, List.mem_singleton] at hn
      rcases hn with hn | hn | rfl
      · exact Nat.lt_succ_of_lt (hnumbered n (.inl hn))
      · exact Nat.lt_succ_of_lt (hnumbered n (.inr hn))
      · exact Nat.lt_succ_self _
  · refine ⟨?_, ?_, ?_, ?_, ?_, ?_⟩
    · show q.accepted ++ [q.calls] =
        q.started ++ (q.taken ++ (q.pending ++ [Call.mk q.calls job]).map Call.number)
      rw [h.order]
      simp [Queue.listed]
    · show (q.accepted ++ [q.calls] ++ q.rejected).Nodup
      rw [List.append_assoc, List.singleton_append, List.nodup_middle]
      exact List.nodup_cons.2 ⟨h.fresh, h.distinct⟩
    · intro n hn
      simp only [List.mem_append, List.mem_singleton] at hn
      rcases hn with (hn | rfl) | hn
      · exact Nat.lt_succ_of_lt (hnumbered n (.inl hn))
      · exact Nat.lt_succ_self _
      · exact Nat.lt_succ_of_lt (hnumbered n (.inr hn))
    · -- on an empty list the thread itself will wake the loop
      intro _
      by_cases hempty : q.pending = []
      · simp [hempty]
      · have hlong : (q.pending ++ [Call.mk q.calls job]).length ≠ 1 := by simpa using hempty
        simp only [hlong, ↓reduceIte]
        exact h.woken hempty
    · show (q.pending ++ [Call.mk q.calls job]).length ≤ cap
      simp only [List.length_append, List.length_singleton]
      omega
    · show q.hbSub + 1 = (q.accepted ++ [q.calls]).length
      simp only [h.submitted, List.length_append, List.length_singleton]

/-- **A step keeps the list sound.** -/
theorem Sound.step (h : Sound cap q) {a : Act α} (hstep : step cap q a = some q') :
    Sound cap q' := by
  have horder := h.order
  rcases step_cases hstep with ⟨thread, job, -, rfl⟩ | ⟨thread, -, rfl⟩ | ⟨-, hnone, rfl⟩ |
    ⟨c, rest, -, hbatch, rfl⟩ | ⟨-, hbatch, rfl⟩
  · exact h.submitAsync thread job
  · exact ⟨horder, h.distinct, h.numbered, fun _ => .inl (Nat.succ_pos _), h.bounded, h.submitted⟩
  · refine ⟨?_, h.distinct, h.numbered, fun hne => absurd rfl hne, Nat.zero_le _, h.submitted⟩
    simpa [Queue.taken, Queue.listed, hnone] using horder
  · refine ⟨?_, h.distinct, h.numbered, h.woken, h.bounded, h.submitted⟩
    simpa [Queue.taken, Queue.listed, hbatch] using horder
  · refine ⟨?_, h.distinct, h.numbered, h.woken, h.bounded, h.submitted⟩
    simpa [Queue.taken, Queue.listed, hbatch] using horder

theorem sound_of_reachable {C : Queue α → Act α → Prop} (h : (system α cap).Reachable C q) :
    Sound cap q := by
  refine h.invariant ?_ fun q a q' hq _ hstep => hq.step hstep
  rintro q rfl
  exact sound_init cap

/-! ### How long a call waits -/

/-- The steps of the loop until the call is started: those of the batch before it, and if it is still on
the list, also the rest of the running `_drain` and the start of the next. -/
def Queue.ahead (q : Queue α) (n : ℕ) : ℕ :=
  if n ∈ q.taken then q.taken.idxOf n + 1
  else q.batch.elim 0 (fun b => b.length + 1) + 1 + (q.listed.idxOf n + 1)

theorem Queue.ahead_pos (q : Queue α) (n : ℕ) : 0 < q.ahead n := by
  unfold Queue.ahead
  split_ifs <;> omega

/-- A submission goes behind the calls that wait. -/
theorem ahead_submitAsync (thread : ℕ) (job : α) {n : ℕ} (hn : n ∈ q.taken ++ q.listed) :
    n ∈ (submitAsync cap thread job q).taken ++ (submitAsync cap thread job q).listed ∧
      (submitAsync cap thread job q).ahead n = q.ahead n := by
  unfold submitAsync
  split_ifs with hfull
  · exact ⟨hn, rfl⟩
  · have hlisted : ∀ l : List (Call α), (l ++ [Call.mk q.calls job]).map Call.number =
        l.map Call.number ++ [q.calls] := fun l => by simp
    constructor
    · show n ∈ q.taken ++ (q.pending ++ [Call.mk q.calls job]).map Call.number
      rw [hlisted, ← List.append_assoc]
      exact List.mem_append_left _ hn
    · by_cases htaken : n ∈ q.taken
      · simp only [Queue.ahead, Queue.taken] at htaken ⊢
        simp only [htaken, ↓reduceIte]
      · have hmem : n ∈ q.listed := (List.mem_append.1 hn).resolve_left htaken
        simp only [Queue.ahead, Queue.taken, Queue.listed] at htaken hmem ⊢
        simp only [htaken, ↓reduceIte, hlisted, List.idxOf_append_of_mem hmem]

/-- **A step and a call that waits**: a step of the loop brings it one closer or starts it, and any other
step leaves it where it is. -/
theorem ahead_step {a : Act α} (hstep : step cap q a = some q') {n : ℕ}
    (hn : n ∈ q.taken ++ q.listed) :
    n ∈ q'.started ∨ (n ∈ q'.taken ++ q'.listed ∧ q'.ahead n + a.onLoop.toNat = q.ahead n) := by
  rcases step_cases hstep with ⟨thread, job, rfl, rfl⟩ | ⟨thread, rfl, rfl⟩ | ⟨rfl, hnone, rfl⟩ |
    ⟨c, rest, rfl, hbatch, rfl⟩ | ⟨rfl, hbatch, rfl⟩
  · exact .inr (ahead_submitAsync thread job hn)
  · exact .inr ⟨hn, rfl⟩
  · have hmem : n ∈ q.listed := by simpa [Queue.taken, hnone] using hn
    refine .inr ⟨List.mem_append_left _ hmem, ?_⟩
    simp only [Queue.listed] at hmem
    simp [Queue.ahead, Queue.taken, Queue.listed, hnone, hmem, Act.onLoop]
    omega
  · by_cases hc : c.number = n
    · exact .inl (List.mem_append_right _ (by simp [hc]))
    · have hn' : n ∈ rest.map Call.number ∨ n ∈ q.listed := by
        simpa [Queue.taken, hbatch, Ne.symm hc] using hn
      have hsame : n ∈ c.number :: rest.map Call.number ↔ n ∈ rest.map Call.number := by
        simp [Ne.symm hc]
      refine .inr ⟨List.mem_append.2 hn', ?_⟩
      by_cases hrest : n ∈ rest.map Call.number
      · simp only [Queue.ahead, Queue.taken, hbatch, Option.getD_some, List.map_cons, hsame, hrest,
          ↓reduceIte, List.idxOf_cons_ne _ hc, Act.onLoop, Bool.toNat_true]
      · simp only [Queue.ahead, Queue.taken, Queue.listed, hbatch, Option.getD_some, List.map_cons,
          hsame, hrest, ↓reduceIte, Option.elim_some, List.length_cons, Act.onLoop, Bool.toNat_true]
        omega
  · have hmem : n ∈ q.listed := by simpa [Queue.taken, hbatch] using hn
    refine .inr ⟨List.mem_append_right _ hmem, ?_⟩
    simp [Queue.ahead, Queue.taken, Queue.listed, hbatch, Act.onLoop]
    omega

/-- What is started stays so. -/
theorem started_step {a : Act α} (hstep : step cap q a = some q') : q.started ⊆ q'.started := by
  rcases step_cases hstep with ⟨thread, job, -, rfl⟩ | ⟨thread, -, rfl⟩ | ⟨-, -, rfl⟩ |
    ⟨c, rest, -, -, rfl⟩ | ⟨-, -, rfl⟩
  · unfold submitAsync
    split_ifs <;> exact List.Subset.refl _
  · exact List.Subset.refl _
  · exact List.Subset.refl _
  · exact List.subset_append_left _ _
  · exact List.Subset.refl _

theorem started_run {l : List (Act α)} {n : ℕ} (hrun : (system α cap).run q l = some q')
    (hn : n ∈ q.started) : n ∈ q'.started := by
  induction l generalizing q with
  | nil =>
    cases hrun
    exact hn
  | cons a l ih =>
    obtain ⟨q₁, hstep, hrun⟩ := Option.bind_eq_some_iff.1 hrun
    exact ih hrun (started_step hstep hn)

/-- A call that waits is started in a run in which the loop takes as many steps as are ahead of it. -/
theorem started_of_run {l : List (Act α)} {n : ℕ} (hrun : (system α cap).run q l = some q')
    (hn : n ∈ q.taken ++ q.listed) (hl : q.ahead n ≤ l.countP Act.onLoop) : n ∈ q'.started := by
  induction l generalizing q with
  | nil => exact absurd hl (Nat.not_le.2 (q.ahead_pos n))
  | cons a l ih =>
    obtain ⟨q₁, hstep, hrun⟩ := Option.bind_eq_some_iff.1 hrun
    rcases ahead_step hstep hn with hstarted | ⟨hn₁, hahead⟩
    · exact started_run hrun hstarted
    · refine ih hrun hn₁ ?_
      rw [List.countP_cons] at hl
      cases hloop : a.onLoop <;> simp only [hloop, Bool.toNat_true, Bool.toNat_false, ↓reduceIte,
        Bool.false_eq_true] at hahead hl <;> omega

/-- While a call waits, the loop can take a step, or a thread is about to give it one. -/
theorem enabled_of_sound (h : Sound cap q) {n : ℕ} (hn : n ∈ q.taken ++ q.listed) :
    (∃ a : Act α, a.onLoop = true ∧ (step cap q a).isSome) ∨
      ∃ thread, (step cap q (.callSoon thread)).isSome := by
  cases hbatch : q.batch with
  | some b =>
    refine .inl ?_
    cases b with
    | nil => exact ⟨.drained, rfl, by simp [step, hbatch]⟩
    | cons c rest => exact ⟨.startTask, rfl, by simp [step, hbatch]⟩
  | none =>
    have hne : q.pending ≠ [] := by
      rintro hnil
      simp [Queue.taken, Queue.listed, hbatch, hnil] at hn
    rcases h.woken hne with hscheduled | hwaking
    · exact .inl ⟨.drain, rfl, by simp [step, hbatch, hscheduled]⟩
    · obtain ⟨thread, hthread⟩ := List.exists_mem_of_ne_nil _ hwaking
      exact .inr ⟨thread, by simp [step, hthread]⟩

end Invariant

/-- **Every accepted submission is started once, in order.** In every state of every run: a list that is
not empty has a `_drain` scheduled or a thread about to schedule one; the accepted calls are the started
ones followed by those that wait, each once, and no refused call is among them; and the list is within
the cap. A call that waits always has somebody to move it on, and whatever else happens it is started
by the time the loop has taken the steps that were ahead of it. -/
theorem submissions_started_once {cap : ℕ} {q : Queue α}
    (h : (system α cap).Reachable Transition.System.anyStep q) :
    (q.pending ≠ [] → 0 < q.scheduled ∨ q.waking ≠ []) ∧
    q.accepted = q.started ++ (q.taken ++ q.listed) ∧ q.accepted.Nodup ∧
    (∀ n ∈ q.rejected, n ∉ q.started) ∧ q.pending.length ≤ cap ∧
    ∀ n ∈ q.accepted, n ∉ q.started →
      ((∃ a : Act α, a.onLoop = true ∧ (step cap q a).isSome) ∨
        ∃ thread, (step cap q (.callSoon thread)).isSome) ∧
      ∀ l q', (system α cap).run q l = some q' → q.ahead n ≤ l.countP Act.onLoop →
        n ∈ q'.started := by
  have hsound := sound_of_reachable h
  obtain ⟨hnodup, -, hdisjoint⟩ := List.nodup_append.1 hsound.distinct
  refine ⟨hsound.woken, hsound.order, hnodup, fun n hn hstarted => ?_, hsound.bounded, ?_⟩
  · have haccepted : n ∈ q.accepted := by
      rw [hsound.order]
      exact List.mem_append_left _ hstarted
    exact hdisjoint n haccepted n hn rfl
  · intro n hn hnot
    rw [hsound.order] at hn
    have hwaits := (List.mem_append.1 hn).resolve_left hnot
    exact ⟨enabled_of_sound hsound hwaits, fun l q' hrun hl => started_of_run hrun hwaits hl⟩

/-- Two submissions, of which the first wakes the loop, and a third while the loop starts them. -/
def threeSubmissions : List (Act Unit) :=
  [.submit 0 (), .submit 1 (), .callSoon 0, .drain, .startTask, .submit 1 ()]

theorem submissions_started_once_three :
    let q := ((system Unit 2).run {} threeSubmissions).getD {}
    q.started = [0] ∧ q.taken = [1] ∧ q.listed = [2] ∧ q.accepted = [0] ++ ([1] ++ [2]) ∧
      (0 < q.scheduled ∨ q.waking ≠ []) ∧
      ∀ l q', (system Unit 2).run q l = some q' → 4 ≤ l.countP Act.onLoop → 2 ∈ q'.started := by
  intro q
  have hq : (system Unit 2).Reachable Transition.System.anyStep q :=
    Transition.System.reachable_getD rfl (fun _ _ _ => trivial) (by decide)
  obtain ⟨hwoken, horder, -, -, -, hstarts⟩ := submissions_started_once hq
  have hstarted : q.started = [0] := by decide
  have htaken : q.taken = [1] := by decide
  have hlisted : q.listed = [2] := by decide
  rw [hstarted, htaken, hlisted] at horder
  refine ⟨hstarted, htaken, hlisted, horder, hwoken ?_, ?_⟩
  · intro hnil
    rw [Queue.listed, hnil] at hlisted
    cases hlisted
  · intro l q' hrun hl
    refine (hstarts 2 (by simp [horder]) (by simp [hstarted])).2 l q' hrun ?_
    have hahead : q.ahead 2 = 4 := by decide
    rwa [hahead]

end Cauli.AsyncQueue
