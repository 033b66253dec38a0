import Cauli.Lib.Fence
import Cauli.Lib.Transition

/-!
# Soft timeouts of the sync io lane (`worker/src/shim.py`)

A pool thread runs one task after another through `_run_sync_inner`. A task with a soft timeout reads
the thread's generation, puts a deadline on the watchdog's heap and in the end raises the generation
and clears what is pending; a task without one does none of this. The watchdog compares and injects
in one section of the lock. What was injected strikes between any two bytecodes, also in the cleanup.

* `Phase`, `Thread.move`: a thread in `_run_sync_inner`;
* `Phase.raised`: where an exception takes the thread;
* `ThreadOk`: at most one exception is under way, of the task that runs, and none outside the part
  of an armed task between its `heappush` and its cleanup;
* `soft_timeout_hits_own_task`: for every interleaving.
-/

namespace Cauli.SyncLane

open Fencing Transition

/-- Where a pool thread is in `_run_sync_inner`; `gen` is the local variable. -/
inductive Phase
  | idle
  | entered (armed : Bool)
  | gotGen (armed : Bool) (gen : ℕ)
  /-- The deadline is on the heap, `_schedule_soft_timeout` has not returned. -/
  | scheduled (gen : ℕ)
  | body (armed : Bool) (gen : ℕ)
  /-- In `_finish_value` or `_finish_exc`. -/
  | finishing (armed : Bool) (gen : ℕ)
  /-- In the `finally` block, before the generation is raised. -/
  | cleanup (armed : Bool) (gen : ℕ)
  /-- The generation is raised, the pending exception not cleared. -/
  | bumped
  | leaving
  deriving DecidableEq

/-- A pool thread; `task` counts the calls of `run_sync` in it. -/
structure Thread where
  phase : Phase := .idle
  task : ℕ := 0
  deriving DecidableEq

/-- Where a raised exception takes the thread. A body may handle it and go on, and one that strikes
in `_finish_value` is handed to `_finish_exc` (`kept`). Before the inner `try`, and in the `finally`
block, it goes straight to the handler of `run_sync`: the generation is not raised then. -/
def Phase.raised : Phase → Bool → Option Phase
  | .idle, _ => none
  | .body armed gen, true => some (.body armed gen)
  | .body armed gen, false => some (.finishing armed gen)
  | .finishing armed gen, true => some (.finishing armed gen)
  | .finishing armed gen, false => some (.cleanup armed gen)
  | _, _ => some .leaving

/-- What a pool thread does next. -/
inductive Move
  /-- A job is picked up; `armed` is `soft_timeout_ms is not None and soft_timeout_ms > 0`. -/
  | start (armed : Bool)
  /-- The call is left before a deadline was set: an unknown task, a hook or the start of the
  watchdog that fails. -/
  | fail
  | readGen
  | schedule
  | run
  | finish
  | cleanUp
  | bump
  | clear
  | leave
  | exit
  /-- The pending exception is raised in the thread. -/
  | deliver (kept : Bool)
  deriving DecidableEq

/-- One step of a pool thread. -/
def Thread.move (t : ℕ) (f : Fence) (th : Thread) (m : Move) : Option (Fence × Thread) :=
  match th.phase, m with
  | .idle, .start armed => some (f, ⟨.entered armed, th.task + 1⟩)
  | .entered _, .fail => some (f, ⟨.leaving, th.task⟩)
  | .entered armed, .readGen => some (f, ⟨.gotGen armed (f.gen t), th.task⟩)
  | .gotGen true _, .fail => some (f, ⟨.leaving, th.task⟩)
  | .gotGen true gen, .schedule => some (f.push ⟨t, gen, th.task⟩, ⟨.scheduled gen, th.task⟩)
  | .gotGen false gen, .run => some (f, ⟨.body false gen, th.task⟩)
  | .scheduled gen, .run => some (f, ⟨.body true gen, th.task⟩)
  | .body armed gen, .finish => some (f, ⟨.finishing armed gen, th.task⟩)
  | .finishing armed gen, .cleanUp => some (f, ⟨.cleanup armed gen, th.task⟩)
  | .cleanup true gen, .bump => some (f.setGen t (gen + 1), ⟨.bumped, th.task⟩)
  | .bumped, .clear => some (f.setPending t none, ⟨.leaving, th.task⟩)
  | .cleanup false _, .leave => some (f, ⟨.leaving, th.task⟩)
  | .leaving, .exit => some (f, ⟨.idle, th.task⟩)
  | phase, .deliver kept =>
    if f.pending t = none then none
    else (phase.raised kept).map fun p => (f.setPending t none, ⟨p, th.task⟩)
  | _, _ => none

/-- `_inject_soft`: the comparison and the injection are one section of the lock. -/
def injectSoft (f : Fence) : Option Fence := f.compare.map fun f' => f'.inject.getD f'

/-- The watchdog's heap, the generations and the pool threads. -/
structure State where
  fence : Fence := {}
  threads : ℕ → Thread := fun _ => {}

/-- A step of a pool thread or of the watchdog. -/
inductive Label
  | thread (t : ℕ) (m : Move)
  | heappop (e : Deadline)
  | injectSoft

/-- One step of the lane. -/
def step (s : State) : Label → Option State
  | .thread t m =>
    ((s.threads t).move t s.fence m).map fun r => ⟨r.1, Function.update s.threads t r.2⟩
  | .heappop e => (s.fence.pop e).map fun f => { s with fence := f }
  | .injectSoft => (SyncLane.injectSoft s.fence).map fun f => { s with fence := f }

/-- The lane starts with an empty heap, generations at zero and idle threads. -/
def system : System State Label := ⟨fun s => s = {}, step⟩

/-! ### The invariant of a thread -/

/-- How many exceptions may be under way for a thread. -/
def Phase.limit : Phase → ℕ
  | .scheduled _ => 1
  | .body armed _ => armed.toNat
  | .finishing armed _ => armed.toNat
  | .cleanup armed _ => armed.toNat
  | .bumped => 1
  | _ => 0

theorem Phase.limit_le_one (phase : Phase) : phase.limit ≤ 1 := by
  cases phase with
  | body armed | finishing armed | cleanup armed => cases armed <;> simp [limit]
  | _ => simp [limit]

/-- The generation the running call has read. -/
def Phase.gen? : Phase → Option ℕ
  | .gotGen _ gen => some gen
  | .scheduled gen => some gen
  | .body _ gen => some gen
  | .finishing _ gen => some gen
  | .cleanup _ gen => some gen
  | _ => none

/-- What is under way for a thread belongs to the task it runs, and a raised generation has fenced
the deadline off. -/
structure ThreadOk (f : Fence) (t : ℕ) (th : Thread) : Prop where
  atMost : f.AtMost t th.phase.limit th.task
  gen : ∀ g, th.phase.gen? = some g → f.gen t = g
  fenced : th.phase = .bumped → f.live t = []

variable {f f' : Fence} {t u : ℕ} {th th' : Thread}

theorem ThreadOk.frame (h : ThreadOk f t th) (hframe : Fence.Frame f f' t) : ThreadOk f' t th := by
  refine ⟨h.atMost.frame hframe, fun g hg => hframe.gen.trans (h.gen g hg), fun hb => ?_⟩
  exact hframe.live_eq_nil (h.fenced hb)

/-- A step that leaves the fence alone. -/
theorem ThreadOk.quiet (h : ThreadOk f t th) (hlimit : th.phase.limit = th'.phase.limit)
    (htask : th'.task = th.task ∨ th.phase.limit = 0)
    (hgen : ∀ g, th'.phase.gen? = some g → f.gen t = g) (hb : th'.phase ≠ .bumped) :
    ThreadOk f t th' := by
  refine ⟨?_, hgen, fun hbumped => absurd hbumped hb⟩
  rcases htask with htask | hzero
  · rw [← hlimit, htask]
    exact h.atMost
  · exact (hzero ▸ h.atMost).of_zero _ _

/-- An exception takes the thread to a phase whose generation it still has. -/
theorem gen?_of_raised {phase phase' : Phase} {kept : Bool} (h : phase.raised kept = some phase') :
    phase' ≠ .bumped ∧ ∀ g, phase'.gen? = some g → phase.gen? = some g := by
  cases phase <;> cases kept <;> cases h <;> simp [Phase.gen?]

/-- The exception that strikes is the only one under way. -/
theorem ThreadOk.raised (h : ThreadOk f t th) (hp : f.pending t ≠ none) {kept : Bool} {phase : Phase}
    (hraised : th.phase.raised kept = some phase) :
    ThreadOk (f.setPending t none) t ⟨phase, th.task⟩ := by
  obtain ⟨m, hm⟩ := Option.ne_none_iff_exists'.1 hp
  obtain ⟨hb, hgen⟩ := gen?_of_raised hraised
  have hone : f.AtMost t 1 th.task := h.atMost.mono th.phase.limit_le_one
  exact ⟨(hone.take hm).of_zero _ _, fun g hg => h.gen g (hgen g hg),
    fun hbumped => absurd hbumped hb⟩

/-- **One step of a thread**: the thread stays sound and the others are not touched. -/
theorem ThreadOk.move (hb : f.Bounded) (hnone : f.compared = none) (h : ThreadOk f t th) {m : Move}
    (hmove : th.move t f m = some (f', th')) :
    f'.Bounded ∧ f'.compared = none ∧ ThreadOk f' t th' ∧ ∀ u ≠ t, Fence.Frame f f' u := by
  obtain ⟨phase, task⟩ := th
  unfold Thread.move at hmove
  dsimp only at hmove
  split at hmove
  case h_5 gen =>
    -- `heappush`: the generation that was read is still the thread's
    cases hmove
    have hgen : f.gen t = gen := h.gen gen rfl
    refine ⟨hb.push hgen.symm, hnone, ⟨?_, h.gen, nofun⟩, fun u hu => Fence.frame_push hu⟩
    exact Fence.AtMost.push (e := ⟨t, gen, task⟩) h.atMost hgen.symm
  case h_10 gen =>
    -- the generation is raised above every deadline of the thread
    cases hmove
    have hgen : f.gen t = gen := h.gen gen rfl
    have hlt : f.gen t < gen + 1 := by omega
    refine ⟨hb.setGen (Nat.le_of_lt hlt), hnone, ⟨h.atMost.setGen hb hlt, nofun, fun _ => ?_⟩,
      fun u hu => ?_⟩
    · exact Fence.live_setGen_self hb hlt
    · exact Fence.frame_setGen hu f _
  case h_11 =>
    cases hmove
    have hpassed := Fence.passed_eq_nil hnone t
    refine ⟨hb, hnone, ⟨Fence.AtMost.clear (h.fenced rfl) hpassed, nofun, nofun⟩, fun u hu => ?_⟩
    exact Fence.frame_setPending hu f _
  case h_14 kept =>
    split_ifs at hmove with hp
    obtain ⟨phase', hraised, hmove⟩ := Option.map_eq_some_iff.1 hmove
    cases hmove
    exact ⟨hb, hnone, h.raised hp hraised, fun u hu => Fence.frame_setPending hu f _⟩
  case h_15 => cases hmove
  case h_3 =>
    cases hmove
    refine ⟨hb, hnone, h.quiet rfl (.inl rfl) ?_ nofun, fun u _ => .refl f u⟩
    intro g hg
    exact Option.some.inj hg
  case h_1 =>
    cases hmove
    exact ⟨hb, hnone, h.quiet rfl (.inr rfl) nofun nofun, fun u _ => .refl f u⟩
  all_goals
    cases hmove
    first
      | exact ⟨hb, hnone, h.quiet rfl (.inl rfl) h.gen nofun, fun u _ => .refl f u⟩
      | exact ⟨hb, hnone, h.quiet rfl (.inl rfl) nofun nofun, fun u _ => .refl f u⟩

/-- Only a pending exception can be raised. -/
theorem pending_of_deliver {s s' : State} {kept : Bool}
    (h : step s (.thread t (.deliver kept)) = some s') : s.fence.pending t ≠ none := by
  obtain ⟨r, hmove, -⟩ := Option.map_eq_some_iff.1 h
  intro hnone
  simp [Thread.move, hnone] at hmove

/-! ### Every interleaving -/

/-- The invariant of the lane. -/
structure LaneOk (s : State) : Prop where
  bounded : s.fence.Bounded
  compared : s.fence.compared = none
  thread : ∀ t, ThreadOk s.fence t (s.threads t)

/-- What the watchdog does is framed for every thread. -/
theorem injectSoft_frame (hb : f.Bounded) (hnone : f.compared = none)
    (h : injectSoft f = some f') :
    f'.Bounded ∧ f'.compared = none ∧ ∀ t, Fence.Frame f f' t := by
  obtain ⟨g, hg, rfl⟩ := Option.map_eq_some_iff.1 h
  have hframe := Fence.frame_compare hg hnone
  cases hi : g.inject with
  | none =>
    rw [Option.getD_none]
    exact ⟨hb.compare hg, Option.map_eq_none_iff.1 hi, hframe⟩
  | some g' =>
    rw [Option.getD_some]
    refine ⟨(hb.compare hg).inject hi, ?_, fun t => (hframe t).trans (Fence.frame_inject hi t)⟩
    obtain ⟨e, -, rfl⟩ := Fence.inject_eq_some hi
    rfl

theorem laneOk_step {s s' : State} {a : Label} (h : LaneOk s) (hstep : step s a = some s') :
    LaneOk s' := by
  cases a with
  | thread t m =>
    obtain ⟨⟨f', th'⟩, hmove, rfl⟩ := Option.map_eq_some_iff.1 hstep
    obtain ⟨hb, hnone, hok, hframe⟩ := ThreadOk.move h.bounded h.compared (h.thread t) hmove
    exact ⟨hb, hnone, Fence.forall_update (fun _ _ hu => hu.frame) h.thread hok hframe⟩
  | heappop e =>
    obtain ⟨f', hpop, rfl⟩ := Option.map_eq_some_iff.1 hstep
    have hcompared : f'.compared = none := (Fence.pop_eq_some hpop).1.trans h.compared
    exact ⟨h.bounded.pop hpop, hcompared, fun u => (h.thread u).frame (Fence.frame_pop hpop u)⟩
  | injectSoft =>
    obtain ⟨f', hinject, rfl⟩ := Option.map_eq_some_iff.1 hstep
    obtain ⟨hb, hnone, hframe⟩ := injectSoft_frame h.bounded h.compared hinject
    exact ⟨hb, hnone, fun u => (h.thread u).frame (hframe u)⟩

theorem laneOk_init : LaneOk {} := by
  refine ⟨nofun, rfl, fun t => ⟨?_, nofun, nofun⟩⟩
  exact List.Subperm.refl []

/-- **Every reachable state of the lane is sound.** -/
theorem laneOk_reachable {s : State} (h : system.Reachable System.anyStep s) : LaneOk s := by
  refine System.Reachable.invariant ?_ (fun _ _ _ hok _ hstep => laneOk_step hok hstep) h
  rintro _ rfl
  exact laneOk_init

/-- **No soft timeout hits a later task**: an exception that is pending in a thread was injected for
the deadline of the task that runs in it, which is an armed one, and so was one that strikes. -/
theorem soft_timeout_hits_own_task {s : State} (h : system.Reachable System.anyStep s) (t : ℕ) :
    (∀ m, s.fence.pending t = some m →
      m = (s.threads t).task ∧ (s.threads t).phase.limit = 1) ∧
    ∀ kept s', step s (.thread t (.deliver kept)) = some s' →
      s.fence.pending t = some (s.threads t).task := by
  have hok := (laneOk_reachable h).thread t
  have hpending : ∀ m, s.fence.pending t = some m →
      m = (s.threads t).task ∧ (s.threads t).phase.limit = 1 := by
    intro m hm
    have hle := (s.threads t).phase.limit_le_one
    have hpos := hok.atMost.pos_of_pending hm
    exact ⟨hok.atMost.eq_of_pending hm, by omega⟩
  refine ⟨hpending, fun kept s' hstep => ?_⟩
  obtain ⟨m, hm⟩ := Option.ne_none_iff_exists'.1 (pending_of_deliver hstep)
  rw [hm, (hpending m hm).1]

/-- The schedule of a thread whose first task is struck in its cleanup, so that the second one has
the generation of the first, and whose second task runs into its own deadline. -/
def struckTwice : List Label :=
  let thread (m : Move) := Label.thread 7 m
  [thread (.start true), thread .readGen, thread .schedule, thread .run, thread .finish,
    thread .cleanUp, .heappop ⟨7, 0, 1⟩, .injectSoft, thread (.deliver false), thread .exit,
    thread (.start true), thread .readGen, thread .schedule, thread .run, .heappop ⟨7, 0, 2⟩,
    .injectSoft]

theorem soft_timeout_hits_own_task_struck_twice :
    ∃ s, system.Reachable System.anyStep s ∧ s.fence.gen 7 = 0 ∧ s.fence.pending 7 = some 2 ∧
      (s.threads 7).task = 2 := by
  have hreach := System.reachable_getD (M := system) (s := {}) (C := System.anyStep)
    (l := struckTwice) rfl (fun _ _ _ => trivial) rfl
  exact ⟨_, hreach, rfl, rfl, ((soft_timeout_hits_own_task hreach 7).1 2 rfl).1.symm⟩

end Cauli.SyncLane
